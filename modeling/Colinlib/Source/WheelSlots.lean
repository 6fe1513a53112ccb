import Mathlib.Data.List.Perm.Subperm
import Colinlib.Source.TimingWheel

/-!
# Where the wheel keeps a timer

`Stored` relates the wheel's rings to the number of ticks each pending timer has
left. A timer of wheel `k` lies in the slot its expiry bits name and has less
than one turn of that wheel left; it is due for a cascade exactly when its
ticks left have shrunk to the part of the expiry below the slot bits.
-/
namespace Colinlib.Source.TimingWheel
open Colinlib.Theory Colinlib.Theory.CMemory Colinlib.Theory.Links Colinlib.Source.Clink

/-- A timer that expires at `expire` after `left` ticks may be on the list of
`p`. The timers of the wheels below `settled` are not due for a cascade; the
local list of a cascade holds timers that belong below the wheel it empties. -/
def Fit (settled : Nat) (p : Ptr) (expire left : Nat) : Prop :=
  match p with
  | .root i => i = expire % 256 ∧ left < 256
  | .tv k j => k < 4 ∧ j = expire / span k % 64 ∧ left < span (k + 1) ∧
      expire % span k ≤ left ∧ (k < settled → expire % span k < left)
  | .cascadeHead => left < span (settled - 1)
  | .tickHead => left = 0
  | .node _ => False

def IsSlot : Ptr → Prop
  | .root i => i < 256
  | .tv k j => k < 4 ∧ j < 64
  | _ => False

/-- The wheel's memory when the timer `n` has `left n` ticks left (`none`: not
pending) and lists hold what `fit` admits. -/
structure Stored (tw : Cotw) (shape : Shape Ptr) (left : Nat → Option Nat)
    (fit : Ptr → Nat → Nat → Prop) : Prop where
  clock : tw.currtick < 2 ^ 32
  rings : Rings tw.links shape
  slots : ∀ p, IsSlot p → ∃ xs, shape p = some xs
  member : ∀ p xs x, shape p = some xs → x ∈ xs → ∃ n node r, x = .node n ∧
    tw.nodes[n]? = some node ∧ left n = some r ∧ r < 2 ^ 32 ∧
    node.expire = uint32 (tw.currtick + r) ∧ fit p node.expire r
  linked : ∀ n r, left n = some r → ∃ p xs, shape p = some xs ∧ Ptr.node n ∈ xs
  idle : ∀ n, n < tw.nodes.length → left n = none → shape (.node n) = some [] ∨
    (Outside shape (.node n) ∧ tw.links.next (.node n) = none)

variable {tw : Cotw} {shape : Shape Ptr} {left : Nat → Option Nat}
  {fit fit' : Ptr → Nat → Nat → Prop}

/-- A list's timers, read off at one of its members. -/
theorem Stored.member_node (s : Stored tw shape left fit) {p : Ptr} {xs : List Ptr} {n r : Nat}
    (hp : shape p = some xs) (hn : Ptr.node n ∈ xs) (hl : left n = some r) :
    ∃ node, tw.nodes[n]? = some node ∧ r < 2 ^ 32 ∧
      node.expire = uint32 (tw.currtick + r) ∧ fit p node.expire r := by
  obtain ⟨m, node, r', hm, hnode, hleft, hr, hexp, hfit⟩ := s.member p xs _ hp hn
  obtain rfl : n = m := by simpa using hm
  obtain rfl : r = r' := Option.some.inj (hl.symm.trans hleft)
  exact ⟨node, hnode, hr, hexp, hfit⟩

theorem Stored.loose_local (s : Stored tw shape left fit) {q : Ptr}
    (notNode : ∀ n, q ≠ .node n) (empty : ∀ xs, shape q = some xs → xs = []) :
    Loose shape q := by
  intro h xs hs hq
  rcases List.mem_cons.mp hq with rfl | hm
  · exact ⟨rfl, empty xs hs⟩
  · obtain ⟨n, _, _, hn, _⟩ := s.member h xs q hs hm
    exact absurd hn (notNode n)

/-- A node that is not pending is in no list. -/
theorem Stored.loose_node (s : Stored tw shape left fit) {n : Nat}
    (nodeFit : ∀ m e r, ¬ fit (.node m) e r) (hl : left n = none) : Loose shape (.node n) := by
  intro h xs hs hq
  rcases List.mem_cons.mp hq with rfl | hm
  · refine ⟨rfl, ?_⟩
    cases xs with
    | nil => rfl
    | cons x rest =>
        obtain ⟨_, _, _, _, _, _, _, _, hfit⟩ := s.member _ _ x hs List.mem_cons_self
        exact absurd hfit (nodeFit n _ _)
  · obtain ⟨m, _, r, hn, _, hleft, _⟩ := s.member h xs _ hs hm
    obtain rfl : n = m := by simpa using hn
    rw [hl] at hleft
    cases hleft

/-- The same lists, judged by another condition. -/
theorem Stored.refit (s : Stored tw shape left fit)
    (h : ∀ p xs e r, shape p = some xs → xs ≠ [] → e = uint32 (tw.currtick + r) → fit p e r →
      fit' p e r) : Stored tw shape left fit' where
  clock := s.clock
  rings := s.rings
  slots := s.slots
  linked := s.linked
  idle := s.idle
  member := by
    intro p xs x hp hx
    obtain ⟨n, node, r, hn, hnode, hleft, hr, hexp, hfit⟩ := s.member p xs x hp hx
    exact ⟨n, node, r, hn, hnode, hleft, hr, hexp,
      h p xs _ r hp (List.ne_nil_of_mem hx) hexp hfit⟩

/-- Taking a pending timer out of whatever list it is in. -/
theorem Stored.unlink (s : Stored tw shape left fit) {n r : Nat} (hl : left n = some r) :
    ∃ links' shape', coclinkRemote tw.links (.node n) = .ok links' ∧
      Stored { tw with links := links' } shape' (Function.update left n none) fit ∧
      (∀ p xs, p ≠ .node n → shape p = some xs → shape' p = some (xs.erase (.node n))) ∧
      (∀ p, p ≠ .node n → shape p = none → shape' p = none) ∧
      shape' (.node n) = some [] := by
  obtain ⟨h, xs, hs, hm⟩ := s.linked n r hl
  obtain ⟨l, rest, rfl⟩ := List.append_of_mem hm
  obtain ⟨links', hrun, hrings, hsame⟩ := coclinkRemote_spec s.rings hs
  have distinct := (s.rings.ring hs).distinct
  have hne : h ≠ .node n := by
    rintro rfl
    exact (List.nodup_cons.mp distinct).1 (by simp)
  have herase : (l ++ Ptr.node n :: rest).erase (.node n) = l ++ rest := by
    have hnl : Ptr.node n ∉ l := by
      intro hin
      exact (List.nodup_append.mp (List.nodup_cons.mp distinct).2).2.2 _ hin _ (by simp) rfl
    rw [List.erase_append_right _ hnl, List.erase_cons_head]
  have hshape : ∀ p xs, p ≠ .node n → shape p = some xs →
      Function.update (Function.update shape h (some (l ++ rest))) (.node n) (some []) p =
        some (xs.erase (.node n)) := by
    intro p xs hp hxs
    rw [Function.update_of_ne hp]
    by_cases hph : p = h
    · subst hph
      obtain rfl : l ++ Ptr.node n :: rest = xs := Option.some.inj (hs.symm.trans hxs)
      rw [Function.update_self, herase]
    · rw [Function.update_of_ne hph, hxs, List.erase_of_not_mem]
      intro hin
      exact s.rings.apart hxs hs hph (List.mem_cons_of_mem _ hin) (by simp)
  have hnone : ∀ p, p ≠ .node n → shape p = none →
      Function.update (Function.update shape h (some (l ++ rest))) (.node n) (some []) p = none := by
    intro p hp hxs
    rw [Function.update_of_ne hp, Function.update_of_ne, hxs]
    rintro rfl
    rw [hs] at hxs
    cases hxs
  have hself : Function.update (Function.update shape h (some (l ++ rest))) (.node n) (some [])
      (.node n) = some [] := Function.update_self ..
  have hback : ∀ p xs, Function.update (Function.update shape h (some (l ++ rest))) (.node n)
      (some []) p = some xs → p ≠ .node n → ∃ ys, shape p = some ys ∧
      xs = ys.erase (.node n) := by
    intro p xs hxs hp
    cases hsp : shape p with
    | none =>
        rw [hnone p hp hsp] at hxs
        cases hxs
    | some ys =>
        rw [hshape p ys hp hsp] at hxs
        exact ⟨ys, rfl, (Option.some.inj hxs).symm⟩
  have hnodup : ∀ p ys, shape p = some ys → ys.Nodup :=
    fun p ys hp => (List.nodup_cons.mp (s.rings.ring hp).distinct).2
  refine ⟨links', _, hrun, ⟨s.clock, hrings, ?_, ?_, ?_, ?_⟩, hshape, hnone, hself⟩
  · intro p hp
    obtain ⟨ys, hys⟩ := s.slots p hp
    have hpn : p ≠ .node n := by rintro rfl; exact hp
    exact ⟨_, hshape p ys hpn hys⟩
  · intro p xs x hp hx
    by_cases hpn : p = .node n
    · subst hpn
      rw [hself] at hp
      obtain rfl : [] = xs := Option.some.inj hp
      cases hx
    · obtain ⟨ys, hys, rfl⟩ := hback p xs hp hpn
      obtain ⟨hxn, hx⟩ := (hnodup p ys hys).mem_erase_iff.mp hx
      obtain ⟨m, node, r', rfl, hnode, hleft, hr, hexp, hfit⟩ := s.member p ys x hys hx
      have hmn : m ≠ n := fun e => hxn (by rw [e])
      exact ⟨m, node, r', rfl, hnode, by rw [Function.update_of_ne hmn, hleft], hr, hexp, hfit⟩
  · intro m r' hm
    by_cases hmn : m = n
    · subst hmn
      rw [Function.update_self] at hm
      cases hm
    · rw [Function.update_of_ne hmn] at hm
      obtain ⟨p, ys, hys, hmem⟩ := s.linked m r' hm
      have hmn' : Ptr.node m ≠ .node n := by simpa using hmn
      by_cases hpn : p = .node n
      · subst hpn
        exact absurd List.mem_cons_self
          (fun hin => s.rings.apart hys hs (Ne.symm hne) hin (by simp))
      · exact ⟨p, _, hshape p ys hpn hys, (List.mem_erase_of_ne hmn').mpr hmem⟩
  · intro m hm hleft
    by_cases hmn : m = n
    · subst hmn
      exact .inl hself
    · rw [Function.update_of_ne hmn] at hleft
      have hmn' : Ptr.node m ≠ .node n := by simpa using hmn
      rcases s.idle m hm hleft with halone | ⟨hout, hnull⟩
      · exact .inl (hshape _ [] hmn' halone)
      · refine .inr ⟨?_, by rw [(hsame _ hout).1, hnull]⟩
        intro p xs hxs
        by_cases hpn : p = .node n
        · subst hpn
          rw [hself] at hxs
          obtain rfl : [] = xs := Option.some.inj hxs
          simpa using hmn
        · obtain ⟨ys, hys, rfl⟩ := hback p xs hxs hpn
          intro hin
          rcases List.mem_cons.mp hin with rfl | hin
          · exact hout _ ys hys List.mem_cons_self
          · exact hout p ys hys (List.mem_cons_of_mem _ (List.mem_of_mem_erase hin))

theorem span_succ (k : Nat) : span (k + 1) = 64 * span k := by
  unfold span
  rw [show 8 + 6 * (k + 1) = 6 + (8 + 6 * k) by omega, Nat.pow_add]

/-- `_cotw_add` chooses an existing slot, and never one that is already due. -/
theorem slotHead_fit {currtick r : Nat} (hc : currtick < 2 ^ 32) (hr : r < 2 ^ 32) :
    ∃ p, slotHead currtick (uint32 (currtick + r)) = some p ∧ IsSlot p ∧
      ∀ settled, Fit settled p (uint32 (currtick + r)) r := by
  rw [slotHead_eq hc hr]
  have low : ∀ k, span k ≤ r → uint32 (currtick + r) % span k < r :=
    fun k hk => Nat.lt_of_lt_of_le (Nat.mod_lt _ (span_pos k)) hk
  have fits : ∀ k, k < 4 → span k ≤ r → r < span (k + 1) → ∀ settled,
      Fit settled (.tv k (uint32 (currtick + r) / span k % 64)) (uint32 (currtick + r)) r :=
    fun k hk h1 h2 _ => ⟨hk, rfl, h2, Nat.le_of_lt (low k h1), fun _ => low k h1⟩
  have slot : ∀ k v, k < 4 → IsSlot (.tv k (v % 64)) :=
    fun k v hk => ⟨hk, Nat.mod_lt _ (by decide)⟩
  have h0 : span 0 = 256 := rfl
  have h4 : span 4 = 2 ^ 32 := rfl
  split
  · next c0 => exact ⟨_, rfl, Nat.mod_lt _ (by decide), fun _ => ⟨rfl, c0⟩⟩
  · next c0 =>
    split
    · next c1 => exact ⟨_, rfl, slot 0 _ (by decide), fits 0 (by decide) (by omega) c1⟩
    · next c1 =>
      split
      · next c2 => exact ⟨_, rfl, slot 1 _ (by decide), fits 1 (by decide) (by omega) c2⟩
      · next c2 =>
        split
        · next c3 => exact ⟨_, rfl, slot 2 _ (by decide), fits 2 (by decide) (by omega) c3⟩
        · next c3 => exact ⟨_, rfl, slot 3 _ (by decide), fits 3 (by decide) (by omega) (by rw [h4]; exact hr)⟩

theorem cotwAdd_run {n : Nat} {node : Cotnode} {slot : Ptr} {links' : Mem Ptr}
    (hnode : tw.nodes[n]? = some node) (hslot : slotHead tw.currtick node.expire = some slot)
    (hrun : coclinkAddBack tw.links slot (.node n) = .ok links') :
    _cotwAdd tw n = .ok { tw with links := links' } := by
  have hget : getNode tw n = .ok node := by rw [getNode, hnode]
  rw [_cotwAdd, hget, ok_bind, hslot]
  simp only [hrun, ok_bind]

/-- `_cotw_add` of a node that is in no list makes it pending, in a slot. -/
theorem Stored.link (s : Stored tw shape left fit) {n r : Nat} {node : Cotnode}
    (hnode : tw.nodes[n]? = some node) (hexp : node.expire = uint32 (tw.currtick + r))
    (hr : r < 2 ^ 32) (hl : left n = none) (nodeFit : ∀ m e r, ¬ fit (.node m) e r)
    (slotFit : ∀ p, IsSlot p → (∀ settled, Fit settled p node.expire r) → fit p node.expire r) :
    ∃ links' shape', _cotwAdd tw n = .ok { tw with links := links' } ∧
      Stored { tw with links := links' } shape' (Function.update left n (some r)) fit ∧
      (∀ p, ¬ IsSlot p → p ≠ .node n → shape' p = shape p) := by
  obtain ⟨slot, hslot, isSlot, hfit⟩ := slotHead_fit s.clock hr
  rw [← hexp] at hslot hfit
  obtain ⟨xs, hs⟩ := s.slots slot isSlot
  have loose : Loose shape (.node n) := s.loose_node nodeFit hl
  have hne : slot ≠ .node n := by rintro rfl; exact isSlot
  obtain ⟨links', hrun, hrings, hsame⟩ := coclinkAddBack_spec s.rings hs loose hne
  have hself : Function.update (Function.update shape (.node n) none) slot
      (some (xs ++ [Ptr.node n])) slot = some (xs ++ [Ptr.node n]) := Function.update_self ..
  have hother : ∀ p, p ≠ slot → p ≠ .node n → Function.update (Function.update shape
      (.node n) none) slot (some (xs ++ [Ptr.node n])) p = shape p := by
    intro p hp hpn
    rw [Function.update_of_ne hp, Function.update_of_ne hpn]
  have hgone : Function.update (Function.update shape (.node n) none) slot
      (some (xs ++ [Ptr.node n])) (.node n) = none := by
    rw [Function.update_of_ne (Ne.symm hne), Function.update_self]
  have hinN : ∀ p ys, shape p = some ys → p ≠ .node n → Ptr.node n ∉ ys := by
    intro p ys hp hpn hin
    exact loose.not_mem hp hpn (List.mem_cons_of_mem _ hin)
  refine ⟨links', _, ?_, ⟨s.clock, hrings, ?_, ?_, ?_, ?_⟩, ?_⟩
  · exact cotwAdd_run hnode hslot hrun
  · intro p hp
    by_cases hps : p = slot
    · exact ⟨_, by rw [hps]; exact hself⟩
    · obtain ⟨ys, hys⟩ := s.slots p hp
      have hpn : p ≠ .node n := by rintro rfl; exact hp
      exact ⟨ys, by rw [hother p hps hpn, hys]⟩
  · intro p ys x hp hx
    by_cases hxn : x = .node n
    · subst hxn
      refine ⟨n, node, r, rfl, hnode, Function.update_self .., hr, hexp, ?_⟩
      by_cases hps : p = slot
      · subst hps
        exact slotFit p isSlot hfit
      · by_cases hpn : p = .node n
        · subst hpn
          rw [hgone] at hp
          cases hp
        · rw [hother p hps hpn] at hp
          exact absurd hx (hinN p ys hp hpn)
    · have hold : ∃ ys', shape p = some ys' ∧ x ∈ ys' := by
        by_cases hps : p = slot
        · subst hps
          rw [hself] at hp
          obtain rfl : xs ++ [Ptr.node n] = ys := Option.some.inj hp
          rcases List.mem_append.mp hx with hx | hx
          · exact ⟨xs, hs, hx⟩
          · exact absurd (by simpa using hx) hxn
        · by_cases hpn : p = .node n
          · subst hpn
            rw [hgone] at hp
            cases hp
          · rw [hother p hps hpn] at hp
            exact ⟨ys, hp, hx⟩
      obtain ⟨ys', hp', hx'⟩ := hold
      obtain ⟨m, node', r', rfl, hnode', hleft, hr', hexp', hfit'⟩ := s.member p ys' x hp' hx'
      have hmn : m ≠ n := fun e => hxn (by rw [e])
      exact ⟨m, node', r', rfl, hnode', by rw [Function.update_of_ne hmn, hleft], hr', hexp',
        hfit'⟩
  · intro m r' hm
    by_cases hmn : m = n
    · subst hmn
      exact ⟨slot, _, hself, by simp⟩
    · rw [Function.update_of_ne hmn] at hm
      obtain ⟨p, ys, hys, hmem⟩ := s.linked m r' hm
      by_cases hps : p = slot
      · subst hps
        obtain rfl : xs = ys := Option.some.inj (hs.symm.trans hys)
        exact ⟨p, _, hself, List.mem_append_left _ hmem⟩
      · by_cases hpn : p = .node n
        · subst hpn
          rw [loose.alone hys] at hmem
          cases hmem
        · exact ⟨p, ys, by rw [hother p hps hpn, hys], hmem⟩
  · intro m hm hleft
    by_cases hmn : m = n
    · subst hmn
      rw [Function.update_self] at hleft
      cases hleft
    · rw [Function.update_of_ne hmn] at hleft
      have hmn' : Ptr.node m ≠ .node n := by simpa using hmn
      have hms : Ptr.node m ≠ slot := by rintro rfl; exact isSlot
      rcases s.idle m hm hleft with halone | ⟨hout, hnull⟩
      · exact .inl (by rw [hother _ hms hmn', halone])
      · refine .inr ⟨?_, by rw [(hsame _ hout hmn').1, hnull]⟩
        intro p ys hp hin
        by_cases hps : p = slot
        · subst hps
          rw [hself] at hp
          obtain rfl : xs ++ [Ptr.node n] = ys := Option.some.inj hp
          rw [← List.cons_append, List.mem_append, List.mem_singleton] at hin
          rcases hin with hin | hin
          · exact hout p xs hs hin
          · exact hmn' hin
        · by_cases hpn : p = .node n
          · subst hpn
            rw [hgone] at hp
            cases hp
          · rw [hother p hps hpn] at hp
            exact hout p ys hp hin
  · intro p hp hpn
    refine hother p ?_ hpn
    rintro rfl
    exact hp isSlot

/-- Writing the fields of a node that is not pending. -/
theorem Stored.writeNode (s : Stored tw shape left fit) {n : Nat} (hl : left n = none)
    (node : Cotnode) :
    Stored { tw with nodes := tw.nodes.set n node } shape left fit where
  clock := s.clock
  rings := s.rings
  slots := s.slots
  linked := s.linked
  idle := by
    intro m hm hleft
    rw [List.length_set] at hm
    exact s.idle m hm hleft
  member := by
    intro p xs x hp hx
    obtain ⟨m, node', r, hm, hnode, hleft, rest⟩ := s.member p xs x hp hx
    have hmn : n ≠ m := by
      rintro rfl
      rw [hl] at hleft
      cases hleft
    exact ⟨m, node', r, hm, by rw [List.getElem?_set_ne hmn, hnode], hleft, rest⟩

/-- Emptying a slot into a fresh local head. -/
theorem Stored.detach (s : Stored tw shape left fit) (q : Ptr) (fit' : Ptr → Nat → Nat → Prop)
    {slot : Ptr} {xs : List Ptr}
    (hslot : IsSlot slot) (hs : shape slot = some xs) (hq : ¬ IsSlot q)
    (notNode : ∀ n, q ≠ .node n) (empty : ∀ ys, shape q = some ys → ys = [])
    (moved : ∀ n node r, Ptr.node n ∈ xs → tw.nodes[n]? = some node → left n = some r →
      node.expire = uint32 (tw.currtick + r) → fit slot node.expire r → fit' q node.expire r)
    (stay : ∀ p ys e r, p ≠ slot → shape p = some ys → ys ≠ [] →
      e = uint32 (tw.currtick + r) → fit p e r → fit' p e r) :
    ∃ links' shape', TimingWheel.detach tw slot q = .ok { tw with links := links' } ∧
      Stored { tw with links := links' } shape' left fit' ∧ shape' q = some xs ∧
      (∀ p, p ≠ q → p ≠ slot → shape' p = shape p) := by
  have loose := s.loose_local notNode empty
  have hne : slot ≠ q := by rintro rfl; exact hq hslot
  have hinit := coclinkInit_rings s.rings loose
  have hslot' : Function.update shape q (some []) slot = some xs := by
    rw [Function.update_of_ne hne, hs]
  have hq' : Function.update shape q (some []) q = some [] := Function.update_self ..
  obtain ⟨links', hrun, hrings, hsame⟩ := coclinkSplice_spec hinit hne hslot' hq'
  rw [List.append_nil] at hrings
  have hqs : Function.update (Function.update (Function.update shape q (some [])) slot (some []))
      q (some xs) q = some xs := Function.update_self ..
  have hother : ∀ p, p ≠ q → p ≠ slot → Function.update (Function.update (Function.update shape q
      (some [])) slot (some [])) q (some xs) p = shape p := by
    intro p hpq hps
    rw [Function.update_of_ne hpq, Function.update_of_ne hps, Function.update_of_ne hpq]
  have hslots : Function.update (Function.update (Function.update shape q (some [])) slot (some []))
      q (some xs) slot = some [] := by
    rw [Function.update_of_ne hne, Function.update_self]
  have hnodeSlot : ∀ n, Ptr.node n ≠ slot := by rintro n rfl; exact hslot
  refine ⟨links', _, ?_, ⟨s.clock, hrings, ?_, ?_, ?_, ?_⟩, hqs, hother⟩
  · simp only [TimingWheel.detach, hrun, ok_bind]
  · intro p hp
    by_cases hpq : p = q
    · subst hpq
      exact absurd hp hq
    · by_cases hps : p = slot
      · exact ⟨[], by rw [hps]; exact hslots⟩
      · obtain ⟨ys, hys⟩ := s.slots p hp
        exact ⟨ys, by rw [hother p hpq hps, hys]⟩
  · intro p ys x hp hx
    by_cases hpq : p = q
    · subst hpq
      rw [hqs] at hp
      obtain rfl : xs = ys := Option.some.inj hp
      obtain ⟨n, node, r, rfl, hnode, hleft, hr, hexp, hfit⟩ := s.member slot xs x hs hx
      exact ⟨n, node, r, rfl, hnode, hleft, hr, hexp,
        moved n node r hx hnode hleft hexp hfit⟩
    · by_cases hps : p = slot
      · subst hps
        rw [hslots] at hp
        obtain rfl : [] = ys := Option.some.inj hp
        cases hx
      · rw [hother p hpq hps] at hp
        obtain ⟨n, node, r, rfl, hnode, hleft, hr, hexp, hfit⟩ := s.member p ys x hp hx
        exact ⟨n, node, r, rfl, hnode, hleft, hr, hexp,
          stay p ys _ r hps hp (List.ne_nil_of_mem hx) hexp hfit⟩
  · intro n r hleft
    obtain ⟨p, ys, hys, hmem⟩ := s.linked n r hleft
    by_cases hps : p = slot
    · subst hps
      obtain rfl : xs = ys := Option.some.inj (hs.symm.trans hys)
      exact ⟨q, _, hqs, hmem⟩
    · by_cases hpq : p = q
      · subst hpq
        rw [empty ys hys] at hmem
        cases hmem
      · exact ⟨p, ys, by rw [hother p hpq hps, hys], hmem⟩
  · intro n hn hleft
    have hnq : Ptr.node n ≠ q := Ne.symm (notNode n)
    rcases s.idle n hn hleft with halone | ⟨hout, hnull⟩
    · exact .inl (by rw [hother _ hnq (hnodeSlot n), halone])
    · have hout' : Outside (Function.update shape q (some [])) (.node n) := by
        intro p ys hp
        by_cases hpq : p = q
        · subst hpq
          rw [Function.update_self] at hp
          obtain rfl : [] = ys := Option.some.inj hp
          simpa using hnq
        · rw [Function.update_of_ne hpq] at hp
          exact hout p ys hp
      refine .inr ⟨?_, ?_⟩
      · intro p ys hp hin
        by_cases hpq : p = q
        · subst hpq
          rw [hqs] at hp
          obtain rfl : xs = ys := Option.some.inj hp
          rcases List.mem_cons.mp hin with hin | hin
          · exact hnq hin
          · exact hout slot xs hs (List.mem_cons_of_mem _ hin)
        · by_cases hps : p = slot
          · subst hps
            rw [hslots] at hp
            obtain rfl : [] = ys := Option.some.inj hp
            exact hnodeSlot n (by simpa using hin)
          · rw [hother p hpq hps] at hp
            exact hout p ys hp hin
      · rw [(hsame _ hout').1, (coclinkInit_same tw.links hnq).1, hnull]

/-- Not in use as a list: the head is uninitialised or links to itself. -/
def Vacant (shape : Shape Ptr) (p : Ptr) : Prop := ∀ ys, shape p = some ys → ys = []

/-- The wall-clock fields play no part in where timers are. -/
theorem Stored.setTime (s : Stored tw shape left fit) (lasttime remainder : Nat) :
    Stored { tw with lasttime, remainder } shape left fit where
  clock := s.clock
  rings := s.rings
  slots := s.slots
  member := s.member
  linked := s.linked
  idle := s.idle

theorem Stored.length_le (s : Stored tw shape left fit) {p : Ptr} {xs : List Ptr}
    (hp : shape p = some xs) : xs.length ≤ tw.nodes.length := by
  have nodup : xs.Nodup := (List.nodup_cons.mp (s.rings.ring hp).distinct).2
  have sub : xs ⊆ (List.range tw.nodes.length).map Ptr.node := by
    intro x hx
    obtain ⟨n, node, _, rfl, hnode, _⟩ := s.member p xs x hp hx
    have hn : n < tw.nodes.length := (List.getElem?_eq_some_iff.mp hnode).1
    exact List.mem_map_of_mem (List.mem_range.mpr hn)
  simpa using (List.subperm_of_subset nodup sub).length_le

/-- The loops' `node = head.next; coclink_remote(head.next)`. -/
theorem Stored.popFront (s : Stored tw shape left fit) {q x : Ptr} {rest : List Ptr}
    (notNode : ∀ n, q ≠ .node n) (hs : shape q = some (x :: rest)) :
    ∃ n node r links' shape', TimingWheel.popFront tw q = .ok (n, { tw with links := links' }) ∧
      tw.nodes[n]? = some node ∧ left n = some r ∧ r < 2 ^ 32 ∧
      node.expire = uint32 (tw.currtick + r) ∧ fit q node.expire r ∧
      Stored { tw with links := links' } shape' (Function.update left n none) fit ∧
      shape' q = some rest ∧ (∀ p, (∀ n, p ≠ .node n) → Vacant shape p → Vacant shape' p) := by
  obtain ⟨n, node, r, rfl, hnode, hleft, hr, hexp, hfit⟩ :=
    s.member q _ x hs List.mem_cons_self
  obtain ⟨links', shape', hrun, hstored, hsome, hnone, _⟩ := s.unlink hleft
  refine ⟨n, node, r, links', shape', ?_, hnode, hleft, hr, hexp, hfit, hstored, ?_, ?_⟩
  · have hnext : tw.links.next q = some (.node n) := (s.rings.ring hs).next_head
    simp only [TimingWheel.popFront, hnext, deref_some, ok_bind, asNode, hrun]
  · rw [hsome q _ (notNode n) hs, List.erase_cons_head]
  · intro p hp hvacant ys hys
    cases hshape : shape p with
    | none =>
        rw [hnone p (hp n) hshape] at hys
        cases hys
    | some zs =>
        rw [hsome p zs (hp n) hshape, hvacant zs hshape] at hys
        exact (Option.some.inj hys).symm

/-- The cascade loop puts every timer of its local list into a slot. -/
theorem cascadeLoop_spec {m : Nat} (fuel : Nat) {tw : Cotw} {shape : Shape Ptr} {xs : List Ptr}
    (s : Stored tw shape left (Fit m)) (hs : shape .cascadeHead = some xs)
    (enough : xs.length ≤ fuel) (vacant : Vacant shape .tickHead) :
    ∃ links' shape', cascadeLoop fuel tw = .ok { tw with links := links' } ∧
      Stored { tw with links := links' } shape' left (Fit m) ∧
      Vacant shape' .cascadeHead ∧ Vacant shape' .tickHead := by
  induction fuel generalizing tw shape xs with
  | zero =>
      obtain rfl : xs = [] := List.length_eq_zero_iff.mp (Nat.le_zero.mp enough)
      refine ⟨tw.links, shape, ?_, s, ?_, vacant⟩
      · rw [cascadeLoop, if_pos ((coclinkIsEmpty_iff s.rings hs).mpr rfl)]
      · intro ys hys
        exact (Option.some.inj (hs.symm.trans hys)).symm
  | succ fuel ih =>
      cases xs with
      | nil =>
          refine ⟨tw.links, shape, ?_, s, ?_, vacant⟩
          · rw [cascadeLoop, if_pos ((coclinkIsEmpty_iff s.rings hs).mpr rfl)]
          · intro ys hys
            exact (Option.some.inj (hs.symm.trans hys)).symm
      | cons x rest =>
          have hmore : ¬ coclinkIsEmpty tw.links .cascadeHead = true := by
            rw [coclinkIsEmpty_iff s.rings hs]
            exact List.cons_ne_nil x rest
          obtain ⟨n, node, r, links₁, shape₁, hpop, hnode, hleft, hr, hexp, _, s₁, hrest, hvac⟩ :=
            s.popFront (by simp) hs
          obtain ⟨links₂, shape₂, hadd, s₂, hkeep⟩ := s₁.link (r := r) hnode hexp hr
            (Function.update_self ..) (fun _ _ _ h => h) (fun _ _ h => h m)
          have hback : Function.update (Function.update left n none) n (some r) = left := by
            rw [Function.update_idem, Function.update_eq_self_iff]
            exact hleft.symm
          rw [hback] at s₂
          have hvac₂ : Vacant shape₂ .tickHead := by
            intro ys hys
            rw [hkeep .tickHead (fun h => h) (by simp)] at hys
            exact hvac .tickHead (by simp) vacant ys hys
          have hrest₂ : shape₂ .cascadeHead = some rest := by
            rw [hkeep .cascadeHead (fun h => h) (by simp), hrest]
          obtain ⟨links', shape', hloop, done⟩ := ih s₂ hrest₂ (by simpa using enough) hvac₂
          refine ⟨links', shape', ?_, done⟩
          rw [cascadeLoop, if_neg hmore, hpop]
          simp only [ok_bind, hadd, hloop]

/-- A timer of the slot a cascade empties belongs below that wheel. -/
theorem due_below {k c r : Nat} (hk : k < 4) (hc : c % span k = 0) (hr : r < span (k + 1))
    (hslot : uint32 (c + r) / span k % 64 = c / span k % 64) : r < span k := by
  unfold uint32 at hslot
  interval_cases k <;> simp only [span] at * <;> omega

/-- Off a cascade boundary of its wheel no timer is due for a cascade. -/
theorem not_due_of_offset {k c r : Nat} (hk : k < 4) (hc : c % span k ≠ 0)
    (hle : uint32 (c + r) % span k ≤ r) : uint32 (c + r) % span k < r := by
  unfold uint32 at *
  interval_cases k <;> simp only [span] at * <;> omega

/-- On a cascade boundary the timers due for it are in the current slot. -/
theorem not_due_of_slot {k c r : Nat} (hk : k < 4) (hc : c % span k = 0)
    (hle : uint32 (c + r) % span k ≤ r)
    (hslot : uint32 (c + r) / span k % 64 ≠ c / span k % 64) : uint32 (c + r) % span k < r := by
  unfold uint32 at *
  interval_cases k <;> simp only [span] at * <;> omega

theorem boundary_next {k c : Nat} (hk : k < 4) (hc : c % span k = 0)
    (hidx : c / span k % 64 = 0) : c % span (k + 1) = 0 := by
  interval_cases k <;> simp only [span] at * <;> omega

theorem no_boundary_above {k i c : Nat} (hi : k ≤ i) (hc : c % span k ≠ 0) : c % span i ≠ 0 := by
  intro h
  have hdvd : span k ∣ span i := Nat.pow_dvd_pow 2 (by omega)
  exact hc (Nat.mod_eq_zero_of_dvd (hdvd.trans (Nat.dvd_of_mod_eq_zero h)))

/-- Past the last wheel whose boundary was reached, everything is settled. -/
theorem Stored.settle {k : Nat} (s : Stored tw shape left (Fit k))
    (off : k < 4 → tw.currtick % span k ≠ 0) (vacant : Vacant shape .cascadeHead) :
    Stored tw shape left (Fit 4) := by
  refine s.refit ?_
  intro p xs e r hp hne he hfit
  cases p with
  | root i => exact hfit
  | tv i j =>
      obtain ⟨hi, hj, hr, hle, hlt⟩ := hfit
      refine ⟨hi, hj, hr, hle, fun _ => ?_⟩
      by_cases hik : i < k
      · exact hlt hik
      · subst he
        exact not_due_of_offset hi (no_boundary_above (by omega) (off (by omega))) hle
  | cascadeHead => exact absurd (vacant xs hp) hne
  | tickHead => exact hfit
  | node n => exact hfit

/-- `_cotw_cascade` at a boundary of its wheel leaves no timer of that wheel due. -/
theorem cotwCascade_spec {k : Nat} (hk : k < 4) (s : Stored tw shape left (Fit k))
    (boundary : tw.currtick % span k = 0) (vc : Vacant shape .cascadeHead)
    (vt : Vacant shape .tickHead) :
    ∃ links' shape', _cotwCascade tw k (nthIndex tw.currtick k) = .ok { tw with links := links' } ∧
      Stored { tw with links := links' } shape' left (Fit (k + 1)) ∧
      Vacant shape' .cascadeHead ∧ Vacant shape' .tickHead := by
  have hslot : IsSlot (.tv k (nthIndex tw.currtick k)) := by
    rw [nthIndex_eq]
    exact ⟨hk, Nat.mod_lt _ (by decide)⟩
  obtain ⟨xs, hs⟩ := s.slots _ hslot
  obtain ⟨links₁, shape₁, hdetach, s₁, hlist, hkeep⟩ :=
    s.detach .cascadeHead (Fit (k + 1)) hslot hs (fun h => h) (by simp) vc
      (by
        rintro n node r _ _ _ he ⟨_, hj, hr, _, _⟩
        rw [nthIndex_eq] at hj
        rw [he] at hj
        exact due_below hk boundary hr hj.symm)
      (by
        intro p _ e r hp _ _ he hfit
        cases p with
        | root i => exact hfit
        | tv i j =>
            obtain ⟨hi, hj, hr, hle, hlt⟩ := hfit
            refine ⟨hi, hj, hr, hle, fun hik => ?_⟩
            by_cases hik' : i < k
            · exact hlt hik'
            · obtain rfl : i = k := by omega
              subst he
              refine not_due_of_slot hi boundary hle ?_
              rw [nthIndex_eq, hj] at hp
              simpa using hp
        | cascadeHead => exact Nat.lt_of_lt_of_le hfit (span_mono (by omega))
        | tickHead => exact hfit
        | node n => exact hfit)
  have vt₁ : Vacant shape₁ .tickHead := by
    intro ys hys
    rw [hkeep .tickHead (by simp) (by simp)] at hys
    exact vt ys hys
  obtain ⟨links', shape', hloop, done⟩ :=
    cascadeLoop_spec tw.nodes.length s₁ hlist (s₁.length_le hlist) vt₁
  refine ⟨links', shape', ?_, done⟩
  simp only [_cotwCascade, hdetach, ok_bind, hloop]

/-- The cascades of one tick, from the first wheel whose boundary was reached. -/
theorem cascadeFrom_spec (n : Nat) {k : Nat} {tw : Cotw} {shape : Shape Ptr} (hkn : k + n = 4)
    (s : Stored tw shape left (Fit k)) (boundary : tw.currtick % span k = 0)
    (vc : Vacant shape .cascadeHead) (vt : Vacant shape .tickHead) :
    ∃ links' shape', cascadeFrom (List.range' k n) tw = .ok { tw with links := links' } ∧
      Stored { tw with links := links' } shape' left (Fit 4) ∧
      Vacant shape' .cascadeHead ∧ Vacant shape' .tickHead := by
  induction n generalizing k tw shape with
  | zero =>
      obtain rfl : k = 4 := hkn
      exact ⟨tw.links, shape, rfl, s, vc, vt⟩
  | succ n ih =>
      have hk : k < 4 := by omega
      obtain ⟨links₁, shape₁, hcascade, s₁, vc₁, vt₁⟩ := cotwCascade_spec hk s boundary vc vt
      rw [List.range'_succ]
      by_cases hidx : nthIndex tw.currtick k = 0
      · have next : tw.currtick % span (k + 1) = 0 :=
          boundary_next hk boundary (by rw [← nthIndex_eq, hidx])
        obtain ⟨links', shape', hrest, done⟩ := ih (by omega) s₁ next vc₁ vt₁
        refine ⟨links', shape', ?_, done⟩
        rw [cascadeFrom]
        simp only [hcascade, ok_bind, if_pos hidx, hrest]
      · refine ⟨links₁, shape₁, ?_, s₁.settle ?_ vc₁, vc₁, vt₁⟩
        · rw [cascadeFrom]
          simp only [hcascade, ok_bind, if_neg hidx]
        · intro _ h
          rw [nthIndex_eq] at hidx
          apply hidx
          rw [span_succ, Nat.mul_comm, Nat.mod_mul] at h
          have := (Nat.add_eq_zero_iff.mp h).2
          exact (Nat.mul_eq_zero.mp this).resolve_left (Nat.ne_of_gt (span_pos k))

/-- Between ticks: no timer is due, neither for a cascade nor for its callback.
During the drain loop the timers that are due are on the tick's local list. -/
def Settled (p : Ptr) (expire left : Nat) : Prop := Fit 4 p expire left ∧ (p ≠ .tickHead → 0 < left)

/-- `cotw_del` of a pending node takes it out. -/
theorem Stored.del_pending (s : Stored tw shape left fit) {n r : Nat} (hl : left n = some r) :
    ∃ tw' shape', cotwDel tw n = .ok (1, tw') ∧ tw'.nodes = tw.nodes ∧
      Stored tw' shape' (Function.update left n none) fit ∧
      (∀ p xs, p ≠ .node n → shape p = some xs → shape' p = some (xs.erase (.node n))) ∧
      (∀ p, p ≠ .node n → shape p = none → shape' p = none) := by
  obtain ⟨p, xs, hp, hmem⟩ := s.linked n r hl
  have linked : coclinkIsEmpty tw.links (.node n) = false := coclinkIsEmpty_node s.rings hp hmem
  obtain ⟨links', shape', hrun, hstored, hsome, hnone, _⟩ := s.unlink hl
  refine ⟨{ tw with links := links' }, shape', ?_, rfl, hstored, hsome, hnone⟩
  rw [cotwDel, linked, Bool.not_false, if_pos rfl, hrun]
  rfl

/-- `cotw_del` of any other node changes nothing, or follows its null link. -/
theorem Stored.del_idle (s : Stored tw shape left fit) {n : Nat} (hn : n < tw.nodes.length)
    (hl : left n = none) :
    cotwDel tw n = .ok (0, tw) ∨ cotwDel tw n = .error .nullPointer := by
  rcases s.idle n hn hl with halone | ⟨_, hnull⟩
  · have hempty : coclinkIsEmpty tw.links (.node n) = true :=
      (coclinkIsEmpty_iff s.rings halone).mpr rfl
    refine .inl ?_
    rw [cotwDel, hempty]
    rfl
  · have hne : coclinkIsEmpty tw.links (.node n) = false := by
      rw [coclinkIsEmpty, hnull]
      rfl
    refine .inr ?_
    rw [cotwDel, hne, Bool.not_false, if_pos rfl, coclinkRemote, hnull]
    rfl

/-- A node that is pending has its links set. -/
theorem Stored.next_of_pending (s : Stored tw shape left fit) {n r : Nat} (hl : left n = some r) :
    tw.links.next (.node n) ≠ none := by
  intro null
  obtain ⟨tw', _, hdel, _⟩ := s.del_pending hl
  rw [cotwDel, coclinkIsEmpty, null, coclinkRemote, null] at hdel
  cases hdel

/-- `cotw_del` of a node that is not pending but was once changes nothing. -/
theorem Stored.del_linked (s : Stored tw shape left fit) {n : Nat} (hn : n < tw.nodes.length)
    (hl : left n = none) (linked : tw.links.next (.node n) ≠ none) :
    cotwDel tw n = .ok (0, tw) := by
  rcases s.idle n hn hl with halone | ⟨_, hnull⟩
  · have hempty : coclinkIsEmpty tw.links (.node n) = true :=
      (coclinkIsEmpty_iff s.rings halone).mpr rfl
    rw [cotwDel, hempty]
    rfl
  · exact absurd hnull linked

theorem settled_node (m e r : Nat) : ¬ Settled (.node m) e r := fun h => h.1

/-- `cotw_add` of a node that is not pending. -/
theorem Stored.add (s : Stored tw shape left Settled) {n r ticks : Nat} {node : Cotnode}
    (hnode : tw.nodes[n]? = some node) (hl : left n = none) (small : r < 2 ^ 32)
    (hr : r = if 0 < ticks then ticks else 1) :
    ∃ tw' shape', cotwAdd tw n ticks = .ok tw' ∧
      tw'.nodes = tw.nodes.set n { node with expire := uint32 (tw.currtick + r) } ∧
      Stored tw' shape' (Function.update left n (some r)) Settled ∧
      (∀ p, ¬ IsSlot p → p ≠ .node n → shape' p = shape p) := by
  have hn : n < tw.nodes.length := (List.getElem?_eq_some_iff.mp hnode).1
  have hpos : 0 < r := by
    rw [hr]
    split <;> omega
  have hget : getNode tw n = .ok node := by rw [getNode, hnode]
  obtain ⟨links', shape', hrun, hstored, hkeep⟩ :=
    (s.writeNode hl { node with expire := uint32 (tw.currtick + r) }).link (r := r)
      (List.getElem?_set_self hn) rfl small hl settled_node
      (fun p _ hfit => ⟨hfit 4, fun _ => hpos⟩)
  refine ⟨_, shape', ?_, rfl, hstored, hkeep⟩
  rw [cotwAdd, hget, ok_bind, ← hr]
  exact hrun

/-- One tick less for every pending timer. -/
def elapse (left : Nat → Option Nat) : Nat → Option Nat := fun n => (left n).map (· - 1)

/-- `++tw->currtick`: every timer is one tick closer, and nothing moves. -/
theorem Stored.tickOnce (s : Stored tw shape left Settled) (vc : Vacant shape .cascadeHead)
    (vt : Vacant shape .tickHead) :
    Stored { tw with currtick := uint32 (tw.currtick + 1) } shape (elapse left) (Fit 0) where
  clock := Nat.mod_lt _ (by decide)
  rings := s.rings
  slots := s.slots
  linked := by
    intro n r hr
    cases hl : left n with
    | none => simp [elapse, hl] at hr
    | some r' => exact s.linked n r' hl
  idle := by
    intro n hn hl
    refine s.idle n hn ?_
    simpa [elapse] using hl
  member := by
    intro p xs x hp hx
    obtain ⟨n, node, r, hn, hnode, hleft, hr, hexp, hfit, hpos⟩ := s.member p xs x hp hx
    have hne : xs ≠ [] := List.ne_nil_of_mem hx
    have hpt : p ≠ .tickHead := by rintro rfl; exact hne (vt xs hp)
    have pos := hpos hpt
    have hclock : uint32 (uint32 (tw.currtick + 1) + (r - 1)) = uint32 (tw.currtick + r) := by
      unfold uint32
      omega
    refine ⟨n, node, r - 1, hn, hnode, by simp [elapse, hleft], by omega, ?_, ?_⟩
    · rw [hexp]
      exact hclock.symm
    · cases p with
      | root i => exact ⟨hfit.1, by have := hfit.2; omega⟩
      | tv i j =>
          obtain ⟨hi, hj, hlt, _, hsettled⟩ := hfit
          have := hsettled hi
          exact ⟨hi, hj, by omega, by omega, fun h => absurd h (Nat.not_lt_zero _)⟩
      | cascadeHead => exact absurd (vc xs hp) hne
      | tickHead => exact absurd rfl hpt
      | node m => exact hfit

/-- Once the cascades of a tick are done, its list gets exactly the timers due. -/
theorem advance_spec (s : Stored tw shape left Settled) (vc : Vacant shape .cascadeHead)
    (vt : Vacant shape .tickHead) :
    ∃ links' shape' xs, advance tw =
        .ok { tw with links := links', currtick := uint32 (tw.currtick + 1) } ∧
      Stored { tw with links := links', currtick := uint32 (tw.currtick + 1) } shape'
        (elapse left) Settled ∧
      shape' .tickHead = some xs ∧ Vacant shape' .cascadeHead := by
  have s₀ := s.tickOnce vc vt
  obtain ⟨links₁, shape₁, hcascade, s₁, vc₁, vt₁⟩ : ∃ links₁ shape₁,
      (if uint32 (tw.currtick + 1) % 256 = 0 then
        cascadeFrom (List.range 4) { tw with currtick := uint32 (tw.currtick + 1) }
        else .ok { tw with currtick := uint32 (tw.currtick + 1) }) =
        .ok { tw with links := links₁, currtick := uint32 (tw.currtick + 1) } ∧
      Stored { tw with links := links₁, currtick := uint32 (tw.currtick + 1) } shape₁
        (elapse left) (Fit 4) ∧
      Vacant shape₁ .cascadeHead ∧ Vacant shape₁ .tickHead := by
    by_cases hb : uint32 (tw.currtick + 1) % 256 = 0
    · obtain ⟨links₁, shape₁, hrun, done⟩ := cascadeFrom_spec 4 (k := 0) rfl s₀ hb vc vt
      refine ⟨links₁, shape₁, ?_, done⟩
      rw [if_pos hb, List.range_eq_range', hrun]
    · exact ⟨tw.links, shape, if_neg hb, s₀.settle (fun _ => hb) vc, vc, vt⟩
  have hslot : IsSlot (.root (uint32 (tw.currtick + 1) % 256)) := Nat.mod_lt _ (by decide)
  obtain ⟨xs, hs⟩ := s₁.slots _ hslot
  obtain ⟨links₂, shape₂, hdetach, s₂, hlist, hkeep⟩ :=
    s₁.detach .tickHead Settled hslot hs (fun h => h) (by simp) vt₁
      (by
        rintro n node r _ _ _ he ⟨hi, hr⟩
        refine ⟨?_, fun h => absurd rfl h⟩
        rw [he] at hi
        have : uint32 (uint32 (tw.currtick + 1) + r) % 256 = (uint32 (tw.currtick + 1) + r) % 256 := by
          unfold uint32
          omega
        change r = 0
        simp only [this] at hi
        omega)
      (by
        intro p ys e r hp hys hne he hfit
        refine ⟨hfit, fun hpt => ?_⟩
        cases p with
        | root i =>
            rcases Nat.eq_zero_or_pos r with rfl | hpos
            · refine absurd ?_ hp
              rw [hfit.1, he]
              congr 1
              unfold uint32
              simp
            · exact hpos
        | tv i j =>
            obtain ⟨hi, _, _, _, hlt⟩ := hfit
            have := hlt hi
            omega
        | cascadeHead => exact absurd (vc₁ ys hys) hne
        | tickHead => exact absurd rfl hpt
        | node m => exact absurd hfit (fun h => h))
  refine ⟨links₂, shape₂, xs, ?_, s₂, hlist, ?_⟩
  · dsimp only [advance]
    rw [currtick_mask]
    by_cases hb : uint32 (tw.currtick + 1) % 256 = 0
    · rw [if_pos hb] at hcascade ⊢
      simp only [hcascade, ok_bind, hdetach]
    · rw [if_neg hb] at hcascade ⊢
      rw [hcascade]
      simp only [ok_bind, hdetach]
  · intro ys hys
    rw [hkeep .cascadeHead (by simp) (by simp)] at hys
    exact vc₁ ys hys

theorem Stored.bound (s : Stored tw shape left fit) {n r : Nat} (hl : left n = some r) :
    n < tw.nodes.length := by
  obtain ⟨p, xs, hp, hm⟩ := s.linked n r hl
  obtain ⟨node, hnode, _⟩ := s.member_node hp hm hl
  exact (List.getElem?_eq_some_iff.mp hnode).1

/-- `cotw_node_init` on a node that is not pending: its links become null. -/
theorem Stored.nodeInit (s : Stored tw shape left fit) {n : Nat} (cb : Option Nat) (ud : Nat)
    (nodeFit : ∀ m e r, ¬ fit (.node m) e r) (hl : left n = none) (hn : n ≤ tw.nodes.length) :
    ∃ shape', Stored (cotwNodeInit tw n cb ud) shape' left fit ∧
      (∀ p, p ≠ .node n → shape' p = shape p) := by
  have loose := s.loose_node nodeFit hl
  have hkept : ∀ m, m ≠ n → m < tw.nodes.length →
      (cotwNodeInit tw n cb ud).nodes[m]? = tw.nodes[m]? := by
    intro m hmn hm
    simp only [cotwNodeInit]
    split
    · exact List.getElem?_set_ne (Ne.symm hmn)
    · exact List.getElem?_append_left hm
  have hsame : ∀ a, a ≠ .node n → SameAt tw.links (cotwNodeInit tw n cb ud).links a := by
    intro a ha
    simp [SameAt, cotwNodeInit, ha]
  have hother : ∀ p, p ≠ .node n → Function.update shape (.node n) none p = shape p :=
    fun p hp => Function.update_of_ne hp _ _
  refine ⟨_, ⟨s.clock, ?_, ?_, ?_, ?_, ?_⟩, hother⟩
  · refine s.rings.assemble [.node n] ?_ ?_ ?_ ?_ ?_
    · intro g hg
      exact hother g (by simpa using hg)
    · intro g ys hg hs a ha
      refine hsame a ?_
      rintro rfl
      exact loose.not_mem hs (by simpa using hg) ha
    · intro g hg ys hs
      obtain rfl : g = .node n := by simpa using hg
      simp at hs
    · intro g hg _ _ ys _ hs
      obtain rfl : g = .node n := by simpa using hg
      simp at hs
    · intro g hg _ _ ys _ hs
      obtain rfl : g = .node n := by simpa using hg
      simp at hs
  · intro p hp
    have hpn : p ≠ .node n := by rintro rfl; exact hp
    rw [hother p hpn]
    exact s.slots p hp
  · intro p xs x hp hx
    have hpn : p ≠ .node n := by
      rintro rfl
      simp at hp
    rw [hother p hpn] at hp
    obtain ⟨m, node, r, rfl, hnode, hleft, rest⟩ := s.member p xs x hp hx
    have hmn : m ≠ n := by
      rintro rfl
      rw [hl] at hleft
      cases hleft
    exact ⟨m, node, r, rfl, by rw [hkept m hmn (s.bound hleft), hnode], hleft, rest⟩
  · intro m r hm
    obtain ⟨p, xs, hp, hmem⟩ := s.linked m r hm
    have hpn : p ≠ .node n := by
      rintro rfl
      rw [loose.alone hp] at hmem
      cases hmem
    exact ⟨p, xs, by rw [hother p hpn, hp], hmem⟩
  · intro m hm hleft
    by_cases hmn : m = n
    · subst hmn
      refine .inr ⟨?_, by simp [cotwNodeInit]⟩
      intro p xs hp hin
      have hpn : p ≠ .node m := by
        rintro rfl
        simp at hp
      rw [hother p hpn] at hp
      exact loose.not_mem hp hpn hin
    · have hmn' : Ptr.node m ≠ .node n := by simpa using hmn
      have hm' : m < tw.nodes.length := by
        simp only [cotwNodeInit] at hm
        split at hm
        · simpa using hm
        · simp only [List.length_append, List.length_singleton] at hm
          omega
      rcases s.idle m hm' hleft with halone | ⟨hout, hnull⟩
      · exact .inl (by rw [hother _ hmn', halone])
      · refine .inr ⟨?_, by rw [(hsame _ hmn').1, hnull]⟩
        intro p xs hp
        have hpn : p ≠ .node n := by
          rintro rfl
          simp at hp
        rw [hother p hpn] at hp
        exact hout p xs hp

/-- Initialising heads one after the other, where all lists are still empty. -/
theorem initAll_rings (heads : List Ptr) {L : Mem Ptr} {shape : Shape Ptr}
    (rings : Rings L shape) (empty : ∀ p, Vacant shape p) :
    ∃ shape', Rings (initAll L heads) shape' ∧ (∀ p, Vacant shape' p) ∧
      (∀ p, p ∈ heads ∨ (∃ xs, shape p = some xs) ↔ ∃ xs, shape' p = some xs) := by
  induction heads generalizing L shape with
  | nil => exact ⟨shape, rings, empty, fun p => by simp⟩
  | cons h rest ih =>
      have loose : Loose shape h := by
        intro p xs hp hm
        rw [empty p xs hp] at hm ⊢
        exact ⟨(List.mem_singleton.mp hm).symm, rfl⟩
      have empty₁ : ∀ p, Vacant (Function.update shape h (some [])) p := by
        intro p ys hp
        by_cases hph : p = h
        · subst hph
          rw [Function.update_self] at hp
          exact (Option.some.inj hp).symm
        · rw [Function.update_of_ne hph] at hp
          exact empty p ys hp
      obtain ⟨shape', hrings, hempty, hdom⟩ := ih (coclinkInit_rings rings loose) empty₁
      refine ⟨shape', hrings, hempty, fun p => ?_⟩
      rw [← hdom p, List.mem_cons]
      by_cases hph : p = h
      · subst hph
        simp
      · simp [hph]

/-- The wheel `cotw_init` leaves, whatever value `currtick` is then given. -/
theorem cotwInit_stored (interval currtime c : Nat) (hc : c < 2 ^ 32) :
    ∃ shape, Stored { cotwInit interval currtime with currtick := c } shape (fun _ => none)
        Settled ∧ Vacant shape .cascadeHead ∧ Vacant shape .tickHead := by
  have none_yet : Rings (⟨fun _ => none, fun _ => none⟩ : Mem Ptr) (fun _ => none) := by
    constructor <;> simp
  obtain ⟨shape₀, r₀, e₀, d₀⟩ := initAll_rings ((List.range tvrSize).map Ptr.root) none_yet
    (fun _ _ h => by cases h)
  obtain ⟨shape₁, r₁, e₁, d₁⟩ := initAll_rings ((List.range tvnSize).map (Ptr.tv 0)) r₀ e₀
  obtain ⟨shape₂, r₂, e₂, d₂⟩ := initAll_rings ((List.range tvnSize).map (Ptr.tv 1)) r₁ e₁
  obtain ⟨shape₃, r₃, e₃, d₃⟩ := initAll_rings ((List.range tvnSize).map (Ptr.tv 2)) r₂ e₂
  obtain ⟨shape₄, r₄, e₄, d₄⟩ := initAll_rings ((List.range tvnSize).map (Ptr.tv 3)) r₃ e₃
  refine ⟨shape₄, ⟨hc, r₄, ?_, ?_, ?_, ?_⟩, e₄ _, e₄ _⟩
  · intro p hp
    rw [← d₄, ← d₃, ← d₂, ← d₁, ← d₀]
    cases p with
    | root i =>
        refine .inr (.inr (.inr (.inr (.inl ?_))))
        exact List.mem_map_of_mem (List.mem_range.mpr hp)
    | tv k j =>
        obtain ⟨hk, hj⟩ := hp
        have hmem : Ptr.tv k j ∈ (List.range tvnSize).map (Ptr.tv k) :=
          List.mem_map_of_mem (List.mem_range.mpr hj)
        interval_cases k
        · exact .inr (.inr (.inr (.inl hmem)))
        · exact .inr (.inr (.inl hmem))
        · exact .inr (.inl hmem)
        · exact .inl hmem
    | cascadeHead => exact absurd hp (fun h => h)
    | tickHead => exact absurd hp (fun h => h)
    | node n => exact absurd hp (fun h => h)
  · intro p xs x hp hx
    rw [e₄ p xs hp] at hx
    cases hx
  · intro n r h
    cases h
  · intro n hn
    exact absurd hn (Nat.not_lt_zero n)

end Colinlib.Source.TimingWheel
