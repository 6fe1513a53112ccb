import Mathlib.Tactic.IntervalCases
import Colinlib.Source.Clink
import Colinlib.Theory.Runs

/-!
# The hierarchical timing wheel (`co_timingwheel.c`)

The slot heads, the heads on the stacks of `_cotw_cascade` and `_cotw_tick` and
the timer nodes share one memory of links. `uint32_t` values are naturals
reduced modulo `2 ^ 32`. A user callback is a parameter: it may change the wheel
through the wheel's own functions. The drain loops are given one step for every
node that exists; running out of steps is the fault `starved`.
-/
namespace Colinlib.Source.TimingWheel
open Colinlib.Theory Colinlib.Theory.CMemory Colinlib.Theory.Links Colinlib.Source.Clink

def tvrBits : Nat := 8
def tvrSize : Nat := 1 <<< tvrBits
def tvnBits : Nat := 6
def tvnSize : Nat := 1 <<< tvnBits
def tvrMask : Nat := tvrSize - 1
def tvnMask : Nat := tvnSize - 1

def firstIndex (v : Nat) : Nat := v &&& tvrMask
def nthIndex (v n : Nat) : Nat := (v >>> (tvrBits + n * tvnBits)) &&& tvnMask

/-- Addresses of link fields: the slots `tvroot.vec + i` and `tv[level].vec + slot`,
the two local heads, and the nodes. -/
inductive Ptr where
  | root (i : Nat)
  | tv (level slot : Nat)
  | cascadeHead
  | tickHead
  | node (n : Nat)
  deriving DecidableEq, Repr

/-- A timer node without its links. A null callback is `none`. -/
structure Cotnode where
  userdata : Nat
  callback : Option Nat
  expire : Nat
  deriving DecidableEq, Repr

/-- The wheel, with the memory its links live in. -/
structure Cotw where
  links : Mem Ptr
  nodes : List Cotnode
  lasttime : Nat
  currtick : Nat
  interval : Nat
  remainder : Nat

def uint32 (n : Nat) : Nat := n % 2 ^ 32

def initAll (L : Mem Ptr) (heads : List Ptr) : Mem Ptr := heads.foldl coclinkInit L

def cotwInit (interval currtime : Nat) : Cotw :=
  let links := initAll ⟨fun _ => none, fun _ => none⟩ ((List.range tvrSize).map Ptr.root)
  let links := (List.range 4).foldl
    (fun links i => initAll links ((List.range tvnSize).map (Ptr.tv i))) links
  { links, nodes := [], lasttime := currtime, currtick := 0, interval, remainder := 0 }

/-- `cotw_node_init` on a node of the memory, or on the next new one. -/
def cotwNodeInit (tw : Cotw) (n : Nat) (cb : Option Nat) (ud : Nat) : Cotw :=
  let node := { userdata := ud, callback := cb, expire := 0 }
  { tw with
    links := setPrev (setNext tw.links (.node n) none) (.node n) none
    nodes := if n < tw.nodes.length then tw.nodes.set n node else tw.nodes ++ [node] }

def getNode (tw : Cotw) (n : Nat) : Except Fault Cotnode :=
  match tw.nodes[n]? with
  | some node => .ok node
  | none => .error .badPointer

/-- The head `_cotw_add` chooses: the wheel by the wrapped difference, the slot
by the bits of `expire`. -/
def slotHead (currtick expire : Nat) : Option Ptr :=
  let idx := uint32 (expire + 2 ^ 32 - currtick)
  if idx < tvrSize then some (.root (firstIndex expire))
  else
    match (List.range 4).find? (fun i => idx < 1 <<< (tvrBits + (i + 1) * tvnBits)) with
    | some i => some (.tv i (nthIndex expire i))
    | none => none

def _cotwAdd (tw : Cotw) (n : Nat) : Except Fault Cotw := do
  let node ← getNode tw n
  match slotHead tw.currtick node.expire with
  | some head => do
    let links ← coclinkAddBack tw.links head (.node n)
    .ok { tw with links }
  | none => .ok tw

def cotwAdd (tw : Cotw) (n ticks : Nat) : Except Fault Cotw := do
  let node ← getNode tw n
  let expire := uint32 (tw.currtick + (if 0 < ticks then ticks else 1))
  _cotwAdd { tw with nodes := tw.nodes.set n { node with expire } } n

def cotwDel (tw : Cotw) (n : Nat) : Except Fault (Nat × Cotw) :=
  if !coclinkIsEmpty tw.links (.node n) then do
    let links ← coclinkRemote tw.links (.node n)
    .ok (1, { tw with links })
  else .ok (0, tw)

/-- The cast of a link to the node it is the first field of. -/
def asNode (p : Ptr) : Except Fault Nat :=
  match p with
  | .node n => .ok n
  | _ => .error .badPointer

/-- Take the first node off a local list. -/
def popFront (tw : Cotw) (head : Ptr) : Except Fault (Nat × Cotw) := do
  let first ← deref (tw.links.next head)
  let n ← asNode first
  let links ← coclinkRemote tw.links first
  .ok (n, { tw with links })

def cascadeLoop : Nat → Cotw → Except Fault Cotw
  | 0, tw => if coclinkIsEmpty tw.links .cascadeHead then .ok tw else .error .starved
  | fuel + 1, tw =>
    if coclinkIsEmpty tw.links .cascadeHead then .ok tw else do
      let (n, tw) ← popFront tw .cascadeHead
      let tw ← _cotwAdd tw n
      cascadeLoop fuel tw

/-- Move a slot's nodes to a fresh local head. -/
def detach (tw : Cotw) (slot head : Ptr) : Except Fault Cotw := do
  let links ← coclinkSplice (coclinkInit tw.links head) slot head
  .ok { tw with links }

def _cotwCascade (tw : Cotw) (level idx : Nat) : Except Fault Cotw := do
  let tw ← detach tw (.tv level idx) .cascadeHead
  cascadeLoop tw.nodes.length tw

/-- The `do … while (idx == 0 && ++i < 4)` of `_cotw_tick` over the wheels left. -/
def cascadeFrom : List Nat → Cotw → Except Fault Cotw
  | [], tw => .ok tw
  | i :: rest, tw => do
    let idx := nthIndex tw.currtick i
    let tw ← _cotwCascade tw i idx
    if idx = 0 then cascadeFrom rest tw else .ok tw

/-- `_cotw_tick` up to its drain loop. -/
def advance (tw : Cotw) : Except Fault Cotw := do
  let tw := { tw with currtick := uint32 (tw.currtick + 1) }
  let index := tw.currtick &&& tvrMask
  let tw ← if index = 0 then cascadeFrom (List.range 4) tw else .ok tw
  detach tw (.root index) .tickHead

/-- What the wheel is run in: `call n cb ud` is the user callback `cb(ud)` of node
`n`; `quiet` tells an observer that a node with a null callback came due, and
cannot touch the wheel. `ε` is how a run of the environment stops. -/
structure Env (σ ε : Type) where
  raise : Fault → ε
  call : Nat → Nat → Nat → Cotw × σ → Except ε (Cotw × σ)
  quiet : Nat → Nat → σ → σ

variable {σ ε : Type}

def Env.lift {β : Type} (env : Env σ ε) (x : Except Fault β) : Except ε β :=
  x.mapError env.raise

def drainLoop (env : Env σ ε) : Nat → Cotw × σ → Except ε (Cotw × σ)
  | 0, (tw, s) =>
    if coclinkIsEmpty tw.links .tickHead then .ok (tw, s) else .error (env.raise .starved)
  | fuel + 1, (tw, s) =>
    if coclinkIsEmpty tw.links .tickHead then .ok (tw, s) else do
      let (n, tw) ← env.lift (popFront tw .tickHead)
      let node ← env.lift (getNode tw n)
      match node.callback with
      | some cb => do
        let next ← env.call n cb node.userdata (tw, s)
        drainLoop env fuel next
      | none => drainLoop env fuel (tw, env.quiet n node.userdata s)

def _cotwTick (env : Env σ ε) (tw : Cotw) (s : σ) : Except ε (Cotw × σ) := do
  let tw ← env.lift (advance tw)
  drainLoop env tw.nodes.length (tw, s)

/-- The value an unsigned 64-bit expression has after its conversion to `int`. -/
def narrow (n : Nat) : Int := Int.bmod (n % 2 ^ 64 : Nat) (2 ^ 32)

theorem narrow_fits {n : Nat} (h : n ≤ intMax) : narrow n = n := by
  unfold narrow intMax at *
  rw [Nat.mod_eq_of_lt (by omega)]
  simp only [Int.bmod]
  omega

/-- The `while (diff >= intv)` of `cotw_update`, which returns what is left of
`diff`; `enter` tells an observer that a tick begins. -/
def updateLoop (env : Env σ ε) (enter : σ → σ) (intv : Int) :
    Nat → Int → Cotw × σ → Except ε (Int × Cotw × σ)
  | 0, diff, w => if intv ≤ diff then .error (env.raise .starved) else .ok (diff, w)
  | fuel + 1, diff, (tw, s) =>
    if intv ≤ diff then do
      let w ← _cotwTick env tw (enter s)
      updateLoop env enter intv fuel (diff - intv) w
    else .ok (diff, (tw, s))

/-- The value an `int` has after its conversion to `uint16_t`. -/
def uint16 (n : Int) : Nat := (n % 65536).toNat

def cotwUpdate (env : Env σ ε) (enter : σ → σ) (tw : Cotw) (currtime : Nat) (s : σ) :
    Except ε (Cotw × σ) :=
  if tw.lasttime < currtime then do
    let diff := narrow (currtime - tw.lasttime + tw.remainder)
    let (diff, tw, s) ←
      updateLoop env enter tw.interval diff.toNat diff ({ tw with lasttime := currtime }, s)
    .ok ({ tw with remainder := uint16 diff }, s)
  else .ok (tw, s)

/-- Every call's elapsed time, with the milliseconds carried into it, is
representable as an `int`. -/
def Representable (interval starttime : Nat) : UInt64 → List UInt64 → Prop
  | _, [] => True
  | previous, currtime :: rest =>
    currtime.toNat - previous.toNat + (previous.toNat - starttime) % interval ≤ intMax ∧
      Representable interval starttime currtime rest

/-- The nodes once one of them, or the next new one, is initialised. -/
theorem cotwNodeInit_nodes {tw : Cotw} {n : Nat} (cb : Option Nat) (ud : Nat)
    (hn : n ≤ tw.nodes.length) (m : Nat) :
    (cotwNodeInit tw n cb ud).nodes[m]? =
      if m = n then some { userdata := ud, callback := cb, expire := 0 } else tw.nodes[m]? := by
  simp only [cotwNodeInit]
  split
  · next lt => rw [List.getElem?_set, if_pos lt]; simp only [eq_comm]
  · next ge =>
    obtain rfl : n = tw.nodes.length := by omega
    by_cases here : m = tw.nodes.length
    · rw [if_pos here, here, List.getElem?_concat_length]
    · rw [if_neg here, List.getElem?_append]
      split
      · rfl
      · rw [List.getElem?_eq_none (by simp; omega), List.getElem?_eq_none (by omega)]

theorem cotwNodeInit_length {tw : Cotw} {n : Nat} (cb : Option Nat) (ud : Nat) :
    (cotwNodeInit tw n cb ud).nodes.length =
      if n < tw.nodes.length then tw.nodes.length else tw.nodes.length + 1 := by
  simp only [cotwNodeInit]
  split <;> simp

theorem cotwNodeInit_next {tw : Cotw} {n : Nat} (cb : Option Nat) (ud : Nat) {p : Ptr}
    (ne : p ≠ .node n) : (cotwNodeInit tw n cb ud).links.next p = tw.links.next p := by
  simp [cotwNodeInit, ne]

theorem _cotwAdd_kept {tw tw' : Cotw} {n : Nat} (h : _cotwAdd tw n = .ok tw') :
    ∃ links, tw' = { tw with links } := by
  obtain ⟨node, -, h⟩ := bind_ok h
  split at h
  · obtain ⟨links, -, h⟩ := bind_ok h
    cases h
    exact ⟨links, rfl⟩
  · cases h
    exact ⟨tw.links, rfl⟩

theorem cotwAdd_kept {tw tw' : Cotw} {n ticks : Nat} (h : cotwAdd tw n ticks = .ok tw') :
    ∃ links nodes, tw' = { tw with links, nodes } := by
  obtain ⟨node, -, h⟩ := bind_ok h
  obtain ⟨links, rfl⟩ := _cotwAdd_kept h
  exact ⟨links, _, rfl⟩

theorem cotwDel_kept {tw tw' : Cotw} {n r : Nat} (h : cotwDel tw n = .ok (r, tw')) :
    ∃ links, tw' = { tw with links } := by
  unfold cotwDel at h
  split at h
  · obtain ⟨links, -, h⟩ := bind_ok h
    cases h
    exact ⟨links, rfl⟩
  · cases h
    exact ⟨tw.links, rfl⟩

theorem popFront_kept {tw tw' : Cotw} {head : Ptr} {n : Nat}
    (h : popFront tw head = .ok (n, tw')) : ∃ links, tw' = { tw with links } := by
  obtain ⟨first, -, h⟩ := bind_ok h
  obtain ⟨m, -, h⟩ := bind_ok h
  obtain ⟨links, -, h⟩ := bind_ok h
  cases h
  exact ⟨links, rfl⟩

theorem _cotwAdd_linked {tw tw' : Cotw} {n : Nat} (h : _cotwAdd tw n = .ok tw') :
    StaysLinked tw.links tw'.links := by
  obtain ⟨node, -, h⟩ := bind_ok h
  split at h
  · obtain ⟨links, added, h⟩ := bind_ok h
    cases h
    exact (coclinkAddBack_linked added).1
  · cases h
    exact fun _ hp => hp

theorem cotwAdd_linked {tw tw' : Cotw} {n ticks : Nat} (h : cotwAdd tw n ticks = .ok tw') :
    StaysLinked tw.links tw'.links := by
  obtain ⟨node, -, h⟩ := bind_ok h
  have added := _cotwAdd_linked h
  exact added

theorem cotwDel_linked {tw tw' : Cotw} {n r : Nat} (h : cotwDel tw n = .ok (r, tw')) :
    StaysLinked tw.links tw'.links := by
  unfold cotwDel at h
  split at h
  · obtain ⟨links, removed, h⟩ := bind_ok h
    cases h
    exact coclinkRemote_linked removed
  · cases h
    exact fun _ hp => hp

theorem popFront_linked {tw tw' : Cotw} {head : Ptr} {n : Nat}
    (h : popFront tw head = .ok (n, tw')) : StaysLinked tw.links tw'.links := by
  obtain ⟨first, -, h⟩ := bind_ok h
  obtain ⟨m, -, h⟩ := bind_ok h
  obtain ⟨links, removed, h⟩ := bind_ok h
  cases h
  exact coclinkRemote_linked removed

theorem detach_linked {tw tw' : Cotw} {slot head : Ptr} (h : detach tw slot head = .ok tw') :
    StaysLinked tw.links tw'.links := by
  obtain ⟨links, spliced, h⟩ := bind_ok h
  cases h
  exact (coclinkInit_linked tw.links head).trans (coclinkSplice_linked spliced)

theorem cascadeLoop_linked (fuel : Nat) {tw tw' : Cotw} (h : cascadeLoop fuel tw = .ok tw') :
    StaysLinked tw.links tw'.links := by
  induction fuel generalizing tw with
  | zero =>
      rw [cascadeLoop] at h
      split at h
      · cases h
        exact fun _ hp => hp
      · cases h
  | succ fuel ih =>
      rw [cascadeLoop] at h
      split at h
      · cases h
        exact fun _ hp => hp
      · obtain ⟨⟨n, tw₁⟩, popped, h⟩ := bind_ok h
        obtain ⟨tw₂, added, h⟩ := bind_ok h
        exact ((popFront_linked popped).trans (_cotwAdd_linked added)).trans (ih h)

theorem cascadeFrom_linked (levels : List Nat) {tw tw' : Cotw}
    (h : cascadeFrom levels tw = .ok tw') : StaysLinked tw.links tw'.links := by
  induction levels generalizing tw with
  | nil =>
      cases h
      exact fun _ hp => hp
  | cons i rest ih =>
      obtain ⟨tw₁, cascaded, h⟩ := bind_ok h
      obtain ⟨tw₂, detached, drained⟩ := bind_ok cascaded
      have first := (detach_linked detached).trans (cascadeLoop_linked _ drained)
      split at h
      · exact first.trans (ih h)
      · cases h
        exact first

theorem advance_linked {tw tw' : Cotw} (h : advance tw = .ok tw') :
    StaysLinked tw.links tw'.links := by
  unfold advance at h
  simp only at h
  split at h
  · obtain ⟨tw₁, cascaded, h⟩ := bind_ok h
    have first := cascadeFrom_linked _ cascaded
    exact first.trans (detach_linked h)
  · obtain ⟨tw₁, advanced, h⟩ := bind_ok h
    cases advanced
    have detached := detach_linked h
    exact detached

theorem Env.lift_ok {env : Env σ ε} {β : Type} {x : Except Fault β} {b : β}
    (h : env.lift x = .ok b) : x = .ok b := by
  cases x with
  | error f => cases h
  | ok b' =>
      cases h
      rfl

/-- What the drain loop does with the node it took. -/
def deliver (env : Env σ ε) (n : Nat) (node : Cotnode) (w : Cotw × σ) : Except ε (Cotw × σ) :=
  match node.callback with
  | some cb => env.call n cb node.userdata w
  | none => .ok (w.1, env.quiet n node.userdata w.2)

/-- The induction over the drain loop, packaged once: `I k` holds with `k` steps
left, and each round ends the loop or takes a node and delivers it. -/
theorem drainLoop_outcome {env : Env σ ε} {stop : ε → Prop} {I : Nat → Cotw × σ → Prop}
    {Q : Cotw × σ → Prop}
    (round : ∀ k w, I k w →
      (coclinkIsEmpty w.1.links .tickHead = true ∧ Q w) ∨
      (coclinkIsEmpty w.1.links .tickHead = false ∧ ∃ j n tw node, k = j + 1 ∧
        popFront w.1 .tickHead = .ok (n, tw) ∧ getNode tw n = .ok node ∧
        Runs.Outcome stop (I j) (deliver env n node (tw, w.2))))
    (fuel : Nat) (w : Cotw × σ) (h : I fuel w) :
    Runs.Outcome stop Q (drainLoop env fuel w) := by
  induction fuel generalizing w with
  | zero =>
      rcases round 0 w h with ⟨empty, done⟩ | ⟨-, j, -, -, -, zero, -⟩
      · rw [drainLoop, if_pos empty]
        exact done
      · cases zero
  | succ fuel ih =>
      obtain ⟨tw, s⟩ := w
      rcases round _ _ h with ⟨empty, done⟩ | ⟨more, j, n, tw₁, node, count, popped, got, delivered⟩
      · rw [drainLoop, if_pos empty]
        exact done
      · obtain rfl : fuel = j := Nat.succ.inj count
        rw [drainLoop, if_neg (by rw [more]; decide), popped]
        change Runs.Outcome stop Q (env.lift (getNode tw₁ n) >>= _)
        rw [got]
        unfold deliver at delivered
        change Runs.Outcome stop Q (match node.callback with | some cb => _ | none => _)
        cases hcb : node.callback with
        | none =>
            simp only [hcb] at delivered
            exact ih _ delivered
        | some cb =>
            simp only [hcb] at delivered
            exact delivered.bind ih

/-- The ticks wheel `k` spends on one of its slots. -/
def span (k : Nat) : Nat := 2 ^ (8 + 6 * k)

theorem firstIndex_eq (v : Nat) : firstIndex v = v % 256 :=
  Nat.and_two_pow_sub_one_eq_mod v 8

theorem nthIndex_eq (v k : Nat) : nthIndex v k = v / span k % 64 := by
  have h : nthIndex v k = v / 2 ^ (8 + k * 6) % 2 ^ 6 := by
    rw [← Nat.shiftRight_eq_div_pow, ← Nat.and_two_pow_sub_one_eq_mod]
    rfl
  rw [h, Nat.mul_comm k 6]
  rfl

theorem currtick_mask (v : Nat) : v &&& tvrMask = v % 256 := firstIndex_eq v

theorem span_pos (k : Nat) : 0 < span k := Nat.two_pow_pos _

theorem span_mono {i k : Nat} (h : i ≤ k) : span i ≤ span k :=
  Nat.pow_le_pow_right (by decide) (by omega)

/-- The wheel chosen for a difference of at least one turn of the first wheel is
the one whose slot is at most, and whose turn is more than, the difference. -/
theorem slotHead_eq {currtick left : Nat} (hc : currtick < 2 ^ 32) (hl : left < 2 ^ 32) :
    slotHead currtick (uint32 (currtick + left)) =
      if left < 256 then some (.root (uint32 (currtick + left) % 256))
      else if left < span 1 then some (.tv 0 (uint32 (currtick + left) / span 0 % 64))
      else if left < span 2 then some (.tv 1 (uint32 (currtick + left) / span 1 % 64))
      else if left < span 3 then some (.tv 2 (uint32 (currtick + left) / span 2 % 64))
      else some (.tv 3 (uint32 (currtick + left) / span 3 % 64)) := by
  have hidx : uint32 (uint32 (currtick + left) + 2 ^ 32 - currtick) = left := by
    unfold uint32
    omega
  have hsize : tvrSize = 256 := rfl
  have h1 : (1 <<< (tvrBits + (0 + 1) * tvnBits)) = span 1 := by decide
  have h2 : (1 <<< (tvrBits + (1 + 1) * tvnBits)) = span 2 := by decide
  have h3 : (1 <<< (tvrBits + (2 + 1) * tvnBits)) = span 3 := by decide
  have h4 : (1 <<< (tvrBits + (3 + 1) * tvnBits)) = 2 ^ 32 := by decide
  have hrange : List.range 4 = [0, 1, 2, 3] := rfl
  simp only [slotHead, hidx, hsize, firstIndex_eq, hrange, List.find?, h1, h2, h3, h4]
  by_cases c0 : left < 256
  · simp [c0]
  · by_cases c1 : left < span 1
    · simp [c0, c1, nthIndex_eq]
    · by_cases c2 : left < span 2
      · simp [c0, c1, c2, nthIndex_eq]
      · by_cases c3 : left < span 3
        · simp [c0, c1, c2, c3, nthIndex_eq]
        · simp only [c0, c1, c2, c3, hl, nthIndex_eq, decide_false, decide_true, if_false]

end Colinlib.Source.TimingWheel
