import Colinlib.Source.TimingWheel

/-!
# Links the wheel does not touch

The wheel writes the links of slots, of its local heads, and of nodes that are in a list
or put into one. A node whose links are null, and a local head of an empty list, keep
their links through everything else: all that is needed of the memory is that every
`prev` link is answered by a `next` link.
-/
namespace Colinlib.Source.TimingWheel
open Colinlib.Theory Colinlib.Theory.CMemory Colinlib.Theory.Links Colinlib.Source.Clink

/-- A node with null links, or a head with null links or of an empty list. -/
def Rests (L : Mem Ptr) (p : Ptr) : Prop :=
  L.next p = none ∨ L.next p = some p ∧ ∀ n, p ≠ .node n

/-- The links are in order afterwards, and what rests and is not its own keeps its link. -/
structure Frame (own : Ptr → Prop) (L L' : Mem Ptr) : Prop where
  answered : Answered L'
  same : ∀ p, ¬ own p → Rests L p → L'.next p = L.next p

variable {tw tw' : Cotw} {own own' : Ptr → Prop} {L L' L'' : Mem Ptr}

theorem Rests.idle {p : Ptr} (h : Rests L p) : Idle L p := h.imp id And.left

theorem Frame.rests {p : Ptr} (h : Frame own L L') (other : ¬ own p) (rests : Rests L p) :
    Rests L' p := by
  rw [Rests, h.same p other rests]
  exact rests

theorem Frame.mono (h : Frame own L L') (more : ∀ p, own p → own' p) : Frame own' L L' :=
  ⟨h.answered, fun p other => h.same p fun mine => other (more p mine)⟩

theorem Frame.trans (h : Frame own L L') (h' : Frame own L' L'') : Frame own L L'' :=
  ⟨h'.answered, fun p other rests =>
    (h'.same p other (h.rests other rests)).trans (h.same p other rests)⟩

theorem Frame.refl (h : Answered L) : Frame own L L := ⟨h, fun _ _ _ => rfl⟩

/-- The head of a slot. -/
def IsHead : Ptr → Prop
  | .root _ | .tv _ _ => True
  | _ => False

theorem slotHead_isHead {currtick expire : Nat} {p : Ptr}
    (h : slotHead currtick expire = some p) : IsHead p := by
  unfold slotHead at h
  dsimp only at h
  split at h
  · cases h
    trivial
  · split at h
    · cases h
      trivial
    · cases h

/-! ## Nodes -/

theorem _cotwAdd_frame {n : Nat} (ran : _cotwAdd tw n = .ok tw') (h : Answered tw.links)
    (idle : Idle tw.links (.node n)) :
    Frame (fun p => IsHead p ∨ p = .node n) tw.links tw'.links := by
  obtain ⟨node, -, ran⟩ := bind_ok ran
  split at ran
  · next head chosen =>
    obtain ⟨links, added, ran⟩ := bind_ok ran
    cases ran
    have isHead := slotHead_isHead chosen
    have ne : head ≠ .node n := by
      rintro rfl
      exact isHead
    obtain ⟨answered, same⟩ := coclinkAddBack_answered h idle ne added
    refine ⟨answered, fun p other rests => same p ?_ (fun mine => other (.inr mine)) rests.idle⟩
    rintro rfl
    exact other (.inl isHead)
  · cases ran
    exact .refl h

theorem cotwAdd_frame {n ticks : Nat} (ran : cotwAdd tw n ticks = .ok tw')
    (h : Answered tw.links) (idle : Idle tw.links (.node n)) :
    Frame (fun p => IsHead p ∨ p = .node n) tw.links tw'.links := by
  obtain ⟨node, -, ran⟩ := bind_ok ran
  have added := _cotwAdd_frame ran h idle
  exact added

theorem cotwAdd_length {n ticks : Nat} (ran : cotwAdd tw n ticks = .ok tw') :
    tw'.nodes.length = tw.nodes.length := by
  obtain ⟨node, -, ran⟩ := bind_ok ran
  obtain ⟨links, rfl⟩ := _cotwAdd_kept ran
  exact List.length_set

/-- A node that was added has its links set. -/
theorem cotwAdd_sets {n ticks : Nat} (ran : cotwAdd tw n ticks = .ok tw')
    (clock : tw.currtick < 2 ^ 32) (small : ticks < 2 ^ 32) :
    tw'.links.next (.node n) ≠ none := by
  obtain ⟨node, got, ran⟩ := bind_ok ran
  obtain ⟨node', got', ran⟩ := bind_ok ran
  have inside : n < tw.nodes.length := by
    unfold getNode at got
    split at got
    · next here => exact (List.getElem?_eq_some_iff.mp here).1
    · cases got
  have stored : node'.expire = uint32 (tw.currtick + (if 0 < ticks then ticks else 1)) := by
    unfold getNode at got'
    simp only [List.getElem?_set_self inside, Except.ok.injEq] at got'
    rw [← got']
  have least : (if 0 < ticks then ticks else 1) < 2 ^ 32 := by
    split <;> omega
  have chosen := slotHead_eq clock least
  rw [← stored] at chosen
  split at ran
  · obtain ⟨links, added, ran⟩ := bind_ok ran
    cases ran
    exact (coclinkAddBack_linked added).2
  · next none =>
    rw [none] at chosen
    split_ifs at chosen

theorem cotwDel_frame {n r : Nat} (ran : cotwDel tw n = .ok (r, tw')) (h : Answered tw.links) :
    Frame (fun _ => False) tw.links tw'.links := by
  unfold cotwDel at ran
  split at ran
  · obtain ⟨links, removed, ran⟩ := bind_ok ran
    cases ran
    obtain ⟨answered, -, same⟩ := coclinkRemote_answered h removed
    exact ⟨answered, fun p _ rests => same p rests.idle⟩
  · cases ran
    exact .refl h

/-- The node that was taken off a list was linked, and is alone now. -/
theorem popFront_frame {head : Ptr} {n : Nat} (ran : popFront tw head = .ok (n, tw'))
    (h : Answered tw.links) :
    Frame (fun _ => False) tw.links tw'.links ∧ tw.links.next (.node n) ≠ none ∧
      tw'.links.next (.node n) = some (.node n) := by
  obtain ⟨first, -, ran⟩ := bind_ok ran
  obtain ⟨m, named, ran⟩ := bind_ok ran
  obtain ⟨links, removed, ran⟩ := bind_ok ran
  cases ran
  have is : first = .node n := by
    cases first <;> cases named
    rfl
  subst is
  obtain ⟨answered, self, same⟩ := coclinkRemote_answered h removed
  refine ⟨⟨answered, fun p _ rests => same p rests.idle⟩, ?_, self⟩
  obtain ⟨after, next, -⟩ := bind_ok removed
  rw [deref_ok next]
  exact Option.some_ne_none after

/-! ## Ticks -/

theorem coclinkIsEmpty_rests {head : Ptr} (local' : ∀ n, head ≠ .node n)
    (empty : coclinkIsEmpty L head = true) : Rests L head :=
  .inr ⟨(beq_iff_eq.mp empty).symm, local'⟩

theorem cascadeLoop_frame (fuel : Nat) {tw : Cotw} (ran : cascadeLoop fuel tw = .ok tw')
    (h : Answered tw.links) :
    Frame IsHead tw.links tw'.links ∧ Rests tw'.links .cascadeHead := by
  induction fuel generalizing tw with
  | zero =>
      rw [cascadeLoop] at ran
      split at ran
      · next empty =>
        cases ran
        exact ⟨.refl h, coclinkIsEmpty_rests (by simp) empty⟩
      · cases ran
  | succ fuel ih =>
      rw [cascadeLoop] at ran
      split at ran
      · next empty =>
        cases ran
        exact ⟨.refl h, coclinkIsEmpty_rests (by simp) empty⟩
      · obtain ⟨⟨n, tw₁⟩, popped, ran⟩ := bind_ok ran
        obtain ⟨tw₂, added, ran⟩ := bind_ok ran
        obtain ⟨first, linked, alone⟩ := popFront_frame popped h
        have second := _cotwAdd_frame added first.answered (.inr alone)
        obtain ⟨rest, rests⟩ := ih ran second.answered
        refine ⟨⟨rest.answered, fun p other still => ?_⟩, rests⟩
        -- the node on its way from the list to a slot is linked, so it is not `p`
        have elsewhere : p ≠ .node n := by
          rintro rfl
          rcases still with null | ⟨-, head⟩
          · exact linked null
          · exact head n rfl
        have outside : ¬ (IsHead p ∨ p = .node n) := by simp [other, elsewhere]
        have still₁ := first.rests (fun no => no) still
        have still₂ := second.rests outside still₁
        rw [rest.same p other still₂, second.same p outside still₁,
          first.same p (fun no => no) still]

theorem detach_frame {slot head : Ptr} (ran : detach tw slot head = .ok tw')
    (h : Answered tw.links) (isSlot : IsHead slot) (local' : ¬ IsHead head)
    (idle : Rests tw.links head) :
    Frame (fun p => IsHead p ∨ p = head) tw.links tw'.links := by
  obtain ⟨links, spliced, ran⟩ := bind_ok ran
  cases ran
  have ne : slot ≠ head := by
    rintro rfl
    exact local' isSlot
  have fresh : (coclinkInit tw.links head).next head = some head := by
    rw [coclinkInit_next, if_pos rfl]
  obtain ⟨answered, same⟩ :=
    coclinkSplice_answered (coclinkInit_answered h idle.idle) ne fresh spliced
  refine ⟨answered, fun p other rests => ?_⟩
  have notHead : p ≠ head := fun mine => other (.inr mine)
  have kept : (coclinkInit tw.links head).next p = tw.links.next p := by
    rw [coclinkInit_next, if_neg notHead]
  rw [same p (by rintro rfl; exact other (.inl isSlot)) notHead ?_, kept]
  rw [Idle, kept]
  exact rests.idle

/-- What a tick writes besides the links of its nodes. -/
def TickOwn (p : Ptr) : Prop := IsHead p ∨ p = .cascadeHead ∨ p = .tickHead

theorem cascadeFrom_frame (levels : List Nat) {tw : Cotw} (ran : cascadeFrom levels tw = .ok tw')
    (h : Answered tw.links) (idle : Rests tw.links .cascadeHead) :
    Frame (fun p => IsHead p ∨ p = .cascadeHead) tw.links tw'.links ∧
      Rests tw'.links .cascadeHead := by
  induction levels generalizing tw with
  | nil =>
      cases ran
      exact ⟨.refl h, idle⟩
  | cons i rest ih =>
      obtain ⟨tw₁, cascaded, ran⟩ := bind_ok ran
      obtain ⟨tw₂, detached, drained⟩ := bind_ok cascaded
      have first := detach_frame detached h trivial (fun no => no) idle
      obtain ⟨second, idle₁⟩ := cascadeLoop_frame _ drained first.answered
      have both := first.trans (second.mono fun p mine => .inl mine)
      split at ran
      · obtain ⟨later, idle'⟩ := ih ran second.answered idle₁
        exact ⟨both.trans later, idle'⟩
      · cases ran
        exact ⟨both, idle₁⟩

theorem advance_frame (ran : advance tw = .ok tw') (h : Answered tw.links)
    (cascade : Rests tw.links .cascadeHead) (tick : Rests tw.links .tickHead) :
    Frame TickOwn tw.links tw'.links ∧ Rests tw'.links .cascadeHead := by
  unfold advance at ran
  dsimp only at ran
  obtain ⟨tw₁, cascades, ran⟩ : ∃ tw₁,
      (Frame (fun p => IsHead p ∨ p = .cascadeHead) tw.links tw₁.links ∧
        Rests tw₁.links .cascadeHead) ∧
      detach tw₁ (.root (uint32 (tw.currtick + 1) &&& tvrMask)) .tickHead = .ok tw' := by
    split at ran
    · obtain ⟨tw₁, cascaded, ran⟩ := bind_ok ran
      have frames := cascadeFrom_frame _ cascaded h cascade
      exact ⟨tw₁, frames, ran⟩
    · obtain ⟨tw₁, none, ran⟩ := bind_ok ran
      cases none
      refine ⟨_, ?_, ran⟩
      exact ⟨.refl h, cascade⟩
  obtain ⟨first, cascade₁⟩ := cascades
  have second := detach_frame ran first.answered trivial (fun no => no)
    (first.rests (by simp [IsHead]) tick)
  refine ⟨(first.mono ?_).trans (second.mono ?_), second.rests (by simp [IsHead]) cascade₁⟩
  · rintro p (mine | mine)
    · exact .inl mine
    · exact .inr (.inl mine)
  · rintro p (mine | mine)
    · exact .inl mine
    · exact .inr (.inr mine)

end Colinlib.Source.TimingWheel
