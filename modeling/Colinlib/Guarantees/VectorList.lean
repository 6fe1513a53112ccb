import Colinlib.Source.Vec
import Colinlib.Theory.Runs
import Colinlib.Theory.SignedList

/-!
# The vector refines a list with signed indices

Every sequence of calls on a new vector does to its items what the list calls do, with an
index below zero counted from the end. A call for an item that is not there changes nothing.
-/
namespace Colinlib.Guarantees.VectorList
open Colinlib.Theory Colinlib.Theory.CMemory Colinlib.Theory.SignedList
open Colinlib.Source.Vec

variable {α : Type}

/-- The items of a vector, those that were never set among them. -/
def items (vec : Covec α) : List (Option α) := slice vec.data 0 vec.size

/-- The allocation is less than 2 GiB, and has room for the items. -/
structure Sound (vec : Covec α) : Prop extends Shaped vec where
  small : vec.cap * max 1 vec.itemsize < 2 ^ 31

section Items
variable {vec : Covec α}

theorem items_getElem? (vec : Covec α) (i : Nat) :
    (items vec)[i]? = if i < vec.size then vec.data[i]? else none := by
  rw [items, slice_getElem?, Nat.zero_add]

theorem items_length (h : Shaped vec) : (items vec).length = vec.size :=
  slice_length _ _ _ (by rw [Nat.zero_add, h.cap]; exact h.fits)

theorem cap_small (h : Sound vec) : vec.cap < 2 ^ 31 :=
  Nat.lt_of_le_of_lt (Nat.le_mul_of_pos_right _ (by omega)) h.small

/-- The index is turned into a position once. -/
theorem fromEnd_fromEnd {n k : Nat} {i : Int} (position : signed n i = k) :
    fromEnd n (k : Int) = fromEnd n i := by
  rw [fromEnd_nat]
  exact position.symm

/-- A signed index names an item, or every access to it is refused. -/
theorem item_cases (n : Nat) (i : Int) :
    (∃ k, (Place.index i).item n = some k ∧ k < n ∧ signed n i = k) ∨
      (Place.index i).item n = none ∧ (fromEnd n i < 0 ∨ fromEnd n i ≥ n) := by
  by_cases inside : 0 ≤ signed n i ∧ signed n i < n
  · have position : signed n i = ((signed n i).toNat : Int) := by omega
    have below : (signed n i).toNat < n := by omega
    exact .inl ⟨_, (Place.item_index position).trans (if_pos below), below, position⟩
  · refine .inr ⟨if_neg inside, ?_⟩
    have same : fromEnd n i = signed n i := rfl
    omega

theorem covecGet_item (h : Shaped vec) (i : Int) :
    covecGet vec i = .ok (((Place.index i).item vec.size).bind ((items vec)[·]?)) := by
  rcases item_cases vec.size i with ⟨k, place, below, position⟩ | ⟨place, refused⟩
  · have same : covecGet vec i = covecGet vec k := by
      simp only [covecGet, fromEnd_fromEnd position]
    rw [same, covecGet_at h k below, place, Option.bind_some, items_getElem?, if_pos below]
  · rw [place]
    exact if_pos refused

theorem covecSet_item (h : Sound vec) (i : Int) (x : Option α) :
    match (Place.index i).item vec.size with
    | some k => ∃ data, covecSet vec i x = .ok (true, { vec with data := data }) ∧
        Sound { vec with data := data } ∧ items { vec with data := data } = (items vec).set k x
    | none => covecSet vec i x = .ok (false, vec) := by
  rcases item_cases vec.size i with ⟨k, place, below, position⟩ | ⟨place, refused⟩
  · rw [place]
    have same : covecSet vec i x = covecSet vec k x := by
      simp only [covecSet, fromEnd_fromEnd position]
    obtain ⟨data, ran, length, cells⟩ := covecSet_data h.toShaped k below x
    refine ⟨data, same.trans ran, ⟨⟨length.trans h.cap, h.fits⟩, h.small⟩, ?_⟩
    apply List.ext_getElem?
    intro j
    rw [items_getElem?, List.getElem?_set, items_getElem?, items_length h.toShaped]
    simp only [cells]
    by_cases here : j = k
    · subst here
      simp [below]
    · simp [here, Ne.symm here]
  · rw [place]
    exact if_pos refused

/-- Growing keeps the items and makes room for one more. -/
theorem checkAndGrow_room (h : Sound vec)
    (room : vec.size + 1 ≥ vec.cap → max initCap (vec.cap * 2) * max 1 vec.itemsize < 2 ^ 31) :
    ∃ grown, checkAndGrow vec = .ok grown ∧ Sound grown ∧ grown.size = vec.size ∧
      grown.itemsize = vec.itemsize ∧ vec.size < grown.cap ∧ items grown = items vec := by
  have cap := cap_small h
  have length := h.cap
  have fits := h.fits
  unfold checkAndGrow
  by_cases full : vec.size + 1 ≥ vec.cap
  · have small := room full
    have wide : max initCap (vec.cap * 2) < 2 ^ 31 :=
      Nat.lt_of_le_of_lt (Nat.le_mul_of_pos_right _ (by omega)) small
    have wider : max initCap (vec.cap * 2) > vec.cap := by
      unfold initCap
      omega
    have inside : vec.size < max initCap (vec.cap * 2) := by omega
    have counted : max initCap (vec.cap * 2) * vec.itemsize < 2 ^ 32 := by
      refine Nat.lt_of_le_of_lt (Nat.mul_le_mul_left _ (Nat.le_max_right 1 vec.itemsize)) ?_
      omega
    refine ⟨{ vec with data := realloc vec.data (max initCap (vec.cap * 2))
                       cap := max initCap (vec.cap * 2) }, ?_, ?_, rfl, rfl, inside, ?_⟩
    · rw [int32, if_pos (by unfold intMax; omega), ok_bind, if_pos full, int32,
        if_pos (by unfold intMax; omega), ok_bind, covecGrowcap, if_pos wider, bytes,
        if_pos counted]
      rfl
    · exact ⟨⟨realloc_length _ _, Nat.le_of_lt inside⟩, small⟩
    · exact slice_realloc _ _ 0 vec.size (by omega) (by omega)
  · refine ⟨vec, ?_, h, rfl, rfl, by omega, rfl⟩
    rw [int32, if_pos (by unfold intMax; omega), ok_bind, if_neg full]
    rfl

/-- A signed index names a gap, or a push there is refused. -/
theorem gap_cases (n : Nat) (i : Int) :
    (∃ k, (Place.index i).gap n = some k ∧ k ≤ n ∧ fromEnd n i = k) ∨
      (Place.index i).gap n = none ∧ (fromEnd n i < 0 ∨ fromEnd n i > n) := by
  by_cases inside : 0 ≤ signed n i ∧ signed n i ≤ n
  · have position : signed n i = ((signed n i).toNat : Int) := by omega
    have below : (signed n i).toNat ≤ n := by omega
    exact .inl ⟨_, (Place.gap_index position).trans (if_pos below), below, position⟩
  · refine .inr ⟨if_neg inside, ?_⟩
    have same : fromEnd n i = signed n i := rfl
    omega

/-- The items from the gap on move up, and the new one takes the gap. -/
theorem covecPush_gap (h : Sound vec) (i : Int) (x : α)
    (room : ((Place.index i).gap vec.size).isSome → vec.size + 1 ≥ vec.cap →
      max initCap (vec.cap * 2) * max 1 vec.itemsize < 2 ^ 31) :
    match (Place.index i).gap vec.size with
    | some k => ∃ vec', covecPush vec i x = .ok (true, vec') ∧ Sound vec' ∧
        vec'.itemsize = vec.itemsize ∧ items vec' = (items vec).insertIdx k (some x)
    | none => covecPush vec i x = .ok (false, vec) := by
  rcases gap_cases vec.size i with ⟨k, place, below, position⟩ | ⟨place, refused⟩
  · rw [place] at room ⊢
    obtain ⟨grown, grew, sound, size, itemsize, inside, same⟩ := checkAndGrow_room h (room rfl)
    have cap := cap_small sound
    obtain ⟨data, shifted, length, cells⟩ : ∃ data,
        (if k ≠ grown.size then covecMove grown k (k + 1) (grown.size - k) else .ok grown) =
          .ok { grown with data := data } ∧ data.length = grown.data.length ∧
        ∀ j, j < grown.size + 1 → data[j]? =
          if j < k then grown.data[j]? else if k < j then grown.data[j - 1]? else data[j]? := by
      by_cases last : k = grown.size
      · refine ⟨grown.data, if_neg (fun ne => ne last), rfl, fun j hj => ?_⟩
        split
        · rfl
        · rw [if_neg (by omega)]
      · obtain ⟨data, ran, length, cells⟩ :=
          covecMove_data sound.toShaped k (k + 1) (grown.size - k) (by omega) (by omega)
        refine ⟨data, (if_pos last).trans ran, length, fun j hj => ?_⟩
        by_cases before : j < k
        · rw [if_pos before, cells, if_neg (by omega)]
        · rw [if_neg before]
          by_cases after : k < j
          · rw [if_pos after, cells, if_pos (by omega)]
            congr 1
            omega
          · rw [if_neg after]
    have bound : k + [some x].length ≤ data.length := by
      rw [length, sound.cap, List.length_singleton]
      omega
    refine ⟨⟨splice data k [some x], grown.cap, grown.size + 1, grown.itemsize⟩, ?_, ?_, itemsize, ?_⟩
    · unfold covecPush
      simp only [position, grew, ok_bind, Int.toNat_natCast]
      rw [if_neg (by omega), ite_bind, shifted, ok_bind, store, if_pos bound, ok_bind, int32,
        if_pos (by unfold intMax; simp only; omega)]
      rfl
    · exact ⟨⟨((splice_length _ _ _ bound).trans length).trans sound.cap, by simp only; omega⟩,
        sound.small⟩
    · apply List.ext_getElem?
      intro j
      rw [items_getElem?, List.getElem?_insertIdx, ← same, items_length sound.toShaped,
        items_getElem?, items_getElem?]
      simp only
      rw [splice_getElem? _ _ _ _ bound, List.length_singleton]
      by_cases beyond : grown.size < j
      · rw [if_neg (by omega), if_neg (by omega), if_neg (by omega), if_neg (by omega)]
      · rw [if_pos (by omega)]
        by_cases before : j < k
        · rw [if_neg (by omega), if_pos before, if_pos (by omega), cells j (by omega), if_pos before]
        · rw [if_neg before]
          by_cases here : j = k
          · rw [if_pos (by omega), if_pos here, if_pos (by omega), here, Nat.sub_self]
            rfl
          · rw [if_neg (by omega), if_neg here, if_pos (by omega), cells j (by omega),
              if_neg before, if_pos (by omega)]
  · rw [place]
    exact if_pos refused

/-- The items behind the one that is deleted move up. -/
theorem covecDel_item (h : Sound vec) (i : Int) :
    match (Place.index i).item vec.size with
    | some k => ∃ vec', covecDel vec i = .ok ((items vec)[k]?, vec') ∧ Sound vec' ∧
        vec'.itemsize = vec.itemsize ∧ items vec' = (items vec).eraseIdx k
    | none => covecDel vec i = .ok (none, vec) := by
  rcases item_cases vec.size i with ⟨k, place, below, position⟩ | ⟨place, refused⟩
  · rw [place]
    have fits := h.fits
    have again : (Place.index (k : Int)).item vec.size = some k :=
      (Place.item_index (signed_nat _ _)).trans (if_pos below)
    have position : fromEnd vec.size i = k := position
    obtain ⟨data, shifted, length, cells⟩ : ∃ data,
        (if k ≠ vec.size - 1 then covecMove vec (k + 1) k (vec.size - k - 1) else .ok vec) =
          .ok { vec with data := data } ∧ data.length = vec.data.length ∧
        ∀ j, j < vec.size - 1 → data[j]? = if j < k then vec.data[j]? else vec.data[j + 1]? := by
      by_cases last : k = vec.size - 1
      · exact ⟨vec.data, if_neg (fun ne => ne last), rfl, fun j hj => (if_pos (by omega)).symm⟩
      · obtain ⟨data, ran, length, cells⟩ :=
          covecMove_data h.toShaped (k + 1) k (vec.size - k - 1) (by omega) (by omega)
        refine ⟨data, (if_pos last).trans ran, length, fun j hj => ?_⟩
        by_cases before : j < k
        · rw [if_pos before, cells, if_neg (by omega)]
        · rw [if_neg before, cells, if_pos (by omega)]
          congr 1
          omega
    refine ⟨⟨data, vec.cap, vec.size - 1, vec.itemsize⟩, ?_, ?_, rfl, ?_⟩
    · unfold covecDel
      simp only [position, covecGet_item h.toShaped, again, Option.bind_some, ok_bind,
        Int.toNat_natCast]
      rw [if_neg (by omega), ite_bind, shifted, ok_bind]
      rfl
    · exact ⟨⟨length.trans h.cap, Nat.le_trans (Nat.sub_le _ _) fits⟩, h.small⟩
    · apply List.ext_getElem?
      intro j
      rw [items_getElem?, List.getElem?_eraseIdx, items_getElem?, items_getElem?]
      simp only
      by_cases inside : j < vec.size - 1
      · rw [if_pos inside, cells j inside, if_pos (by omega : j < vec.size),
          if_pos (by omega : j + 1 < vec.size)]
      · rw [if_neg inside, if_neg (by omega : ¬ j < k), if_neg (by omega : ¬ j + 1 < vec.size)]
  · rw [place]
    exact if_pos refused

theorem covecSwap_items (h : Sound vec) (i j : Int) :
    match (Place.index i).item vec.size, (Place.index j).item vec.size with
    | some a, some b => ∃ vec', covecSwap vec i j = .ok vec' ∧ Sound vec' ∧
        vec'.itemsize = vec.itemsize ∧ items vec' = exchange (items vec) a b
    | _, _ => covecSwap vec i j = .ok vec := by
  have present : ∀ {k l}, (Place.index k).item vec.size = some l → ∃ x, (items vec)[l]? = some x := by
    intro k l place
    have inside := Place.item_lt place
    rw [← items_length h.toShaped] at inside
    exact ⟨_, List.getElem?_eq_getElem inside⟩
  have first := covecGet_item h.toShaped i
  have second := covecGet_item h.toShaped j
  unfold covecSwap
  cases one : (Place.index i).item vec.size with
  | none =>
      rw [one] at first
      rw [first]
      rfl
  | some a =>
      obtain ⟨x, found⟩ := present one
      rw [one, Option.bind_some, found] at first
      rw [first, ok_bind]
      simp only
      cases two : (Place.index j).item vec.size with
      | none =>
          rw [two] at second
          rw [second]
          rfl
      | some b =>
          obtain ⟨y, found'⟩ := present two
          rw [two, Option.bind_some, found'] at second
          rw [second, ok_bind]
          simp only
          have set₁ := covecSet_item h i y
          rw [one] at set₁
          obtain ⟨data, ran, sound, same⟩ := set₁
          have set₂ := covecSet_item sound j x
          simp only [two] at set₂
          obtain ⟨data', ran', sound', same'⟩ := set₂
          refine ⟨_, ?_, sound', rfl, ?_⟩
          · rw [ran, ok_bind]
            simp only
            rw [ran']
            rfl
          · rw [same', same, exchange, found, found']

theorem bytes_small {n itemsize : Nat} (room : n * max 1 itemsize < 2 ^ 31) :
    bytes n itemsize = .ok (n * itemsize) := by
  refine if_pos (Nat.lt_of_le_of_lt (Nat.mul_le_mul_left _ (Nat.le_max_right 1 itemsize)) ?_)
  omega

/-- A vector made longer keeps its items. -/
theorem covecResize_items (h : Sound vec) (n : Nat) (room : n * max 1 vec.itemsize < 2 ^ 31) :
    ∃ vec', covecResize vec n = .ok vec' ∧ Sound vec' ∧ vec'.itemsize = vec.itemsize ∧
      (items vec').length = n ∧ (items vec').take vec.size = (items vec).take n := by
  have fits := h.fits
  have cap := h.cap
  unfold covecResize
  by_cases same : vec.size = n
  · refine ⟨vec, if_pos same, h, rfl, (items_length h.toShaped).trans same, ?_⟩
    rw [same]
  rw [if_neg same]
  by_cases within : vec.cap ≥ n
  · have sound : Sound { vec with size := n } := ⟨⟨cap, within⟩, h.small⟩
    refine ⟨_, if_pos within, sound, rfl, items_length sound.toShaped, ?_⟩
    simp only [items, slice, List.take_take, Nat.min_comm]
  · rw [if_neg within, bytes_small room]
    have sound : Sound ⟨realloc vec.data n, n, n, vec.itemsize⟩ :=
      ⟨⟨realloc_length _ _, Nat.le_refl n⟩, room⟩
    refine ⟨_, rfl, sound, rfl, items_length sound.toShaped, ?_⟩
    have kept := slice_realloc vec.data n 0 vec.size (by omega) (by omega)
    rw [items, slice_take _ _ _ _ (by simp only; omega), kept]
    exact (List.take_of_length_le (Nat.le_trans (Nat.le_of_eq (items_length h.toShaped))
      (by omega))).symm

theorem covecGrowcap_items (h : Sound vec) (cap : Nat) (room : cap * max 1 vec.itemsize < 2 ^ 31) :
    ∃ vec', covecGrowcap vec cap = .ok vec' ∧ Sound vec' ∧ vec'.itemsize = vec.itemsize ∧
      items vec' = items vec := by
  have fits := h.fits
  have length := h.cap
  unfold covecGrowcap
  by_cases more : cap > vec.cap
  · rw [if_pos more, bytes_small room]
    refine ⟨_, rfl, ⟨⟨realloc_length _ _, Nat.le_trans fits (Nat.le_of_lt more)⟩, room⟩, rfl, ?_⟩
    exact slice_realloc _ _ 0 vec.size (by omega) (by omega)
  · exact ⟨vec, if_neg more, h, rfl, rfl⟩

end Items

/-! ## Calls -/

def pushAt (vec : Covec α) (x : α) : Place → Except Fault (Bool × Covec α)
  | .index i => covecPush vec i x
  | .head => covecPushHead vec x
  | .tail => covecPushTail vec x

def getAt (vec : Covec α) : Place → Except Fault (Option (Option α))
  | .index i => covecGet vec i
  | .head => covecGetHead vec
  | .tail => covecGetTail vec

def setAt (vec : Covec α) (x : Option α) : Place → Except Fault (Bool × Covec α)
  | .index i => covecSet vec i x
  | .head => covecSetHead vec x
  | .tail => covecSetTail vec x

def delAt (vec : Covec α) : Place → Except Fault (Option (Option α) × Covec α)
  | .index i => covecDel vec i
  | .head => covecDelHead vec
  | .tail => covecDelTail vec

/-- A negative capacity is none that the vector does not have. -/
def covecServe (vec : Covec α) : Call α → Except Fault (Reply α × Covec α)
  | .push p x => do
    let (done, vec) ← pushAt vec x p
    .ok (.status done, vec)
  | .get p => do
    let cell ← getAt vec p
    .ok (.item cell, vec)
  | .set p x => do
    let (done, vec) ← setAt vec (some x) p
    .ok (.status done, vec)
  | .del p keep => do
    let (cell, vec) ← delAt vec p
    .ok (if keep then .item cell else .status cell.isSome, vec)
  | .swap i j => do
    let vec ← covecSwap vec i j
    .ok (.nothing, vec)
  | .growcap cap => do
    let vec ← covecGrowcap vec cap.toNat
    .ok (.nothing, vec)
  | .resize n => do
    let vec ← covecResize vec n
    .ok (.nothing, vec)
  | .clear => .ok (.nothing, covecClear vec)

def covecRun : Covec α → List (Call α) → Except Fault (List (Reply α) × Covec α)
  | vec, [] => .ok ([], vec)
  | vec, call :: rest => do
    let (out, vec) ← covecServe vec call
    let (outs, vec) ← covecRun vec rest
    .ok (out :: outs, vec)

/-- The vector after a call. -/
def after (vec : Covec α) (call : Call α) : Except Fault (Covec α) :=
  (covecServe vec call).map Prod.snd

/-- The capacity that a call asks for. -/
def demand (vec : Covec α) : Call α → Nat
  | .push p _ =>
    if (p.gap vec.size).isSome ∧ vec.size + 1 ≥ vec.cap then max initCap (vec.cap * 2) else 0
  | .growcap cap => cap.toNat
  | .resize n => n
  | _ => 0

/-- What a call asks for is less than 2 GiB. -/
def Affordable (vec : Covec α) (call : Call α) : Prop :=
  demand vec call * max 1 vec.itemsize < 2 ^ 31

instance (vec : Covec α) (call : Call α) : Decidable (Affordable vec call) :=
  inferInstanceAs (Decidable (_ < _))

section Calls
variable {vec : Covec α}

/-- The call returns, and the items and the reply are those of the list. -/
def Serves (vec : Covec α) (call : Call α) : Prop :=
  ∃ out vec', covecServe vec call = .ok (out, vec') ∧ Sound vec' ∧
    Acts (items vec) call out (items vec') ∧ (call.refused vec.size → vec' = vec)

theorem push_serves (h : Sound vec) (p : Place) (x : α) (room : Affordable vec (.push p x)) :
    Serves vec (.push p x) := by
  have length := items_length h.toShaped
  have named : pushAt vec x p = covecPush vec (p.gapIndex vec.size) x := by cases p <;> rfl
  have place := p.gap_eq vec.size
  have pushed := covecPush_gap h (p.gapIndex vec.size) x fun named full => by
    rw [← place] at named
    have room : demand vec (.push p x) * max 1 vec.itemsize < 2 ^ 31 := room
    rwa [demand, if_pos ⟨named, full⟩] at room
  rw [← place] at pushed
  cases gap : p.gap vec.size with
  | some k =>
      rw [gap] at pushed
      obtain ⟨vec', ran, sound, -, same⟩ := pushed
      refine ⟨.status true, vec', ?_, sound, ?_, by simp [Call.refused, gap]⟩
      · rw [covecServe, named, ran]
        rfl
      · simp only [Acts, length, gap]
        exact ⟨trivial, same⟩
  | none =>
      rw [gap] at pushed
      refine ⟨.status false, vec, ?_, h, ?_, fun _ => rfl⟩
      · rw [covecServe, named, pushed]
        rfl
      · simp only [Acts, length, gap]
        exact ⟨trivial, trivial⟩

theorem get_serves (h : Sound vec) (p : Place) : Serves vec (.get p) := by
  have length := items_length h.toShaped
  have named : getAt vec p = covecGet vec (p.itemIndex vec.size) := by cases p <;> rfl
  refine ⟨.item ((p.item vec.size).bind ((items vec)[·]?)), vec, ?_, h, ?_, fun _ => rfl⟩
  · rw [covecServe, named, covecGet_item h.toShaped, ← p.item_eq]
    rfl
  · simp only [Acts, length]
    exact ⟨trivial, trivial⟩

theorem set_serves (h : Sound vec) (p : Place) (x : α) : Serves vec (.set p x) := by
  have length := items_length h.toShaped
  have named : setAt vec (some x) p = covecSet vec (p.itemIndex vec.size) (some x) := by
    cases p <;> rfl
  have put := covecSet_item h (p.itemIndex vec.size) (some x)
  rw [← p.item_eq] at put
  cases item : p.item vec.size with
  | some k =>
      rw [item] at put
      obtain ⟨data, ran, sound, same⟩ := put
      refine ⟨.status true, _, ?_, sound, ?_, by simp [Call.refused, item]⟩
      · rw [covecServe, named, ran]
        rfl
      · simp only [Acts, length, item]
        exact ⟨trivial, same⟩
  | none =>
      rw [item] at put
      refine ⟨.status false, vec, ?_, h, ?_, fun _ => rfl⟩
      · rw [covecServe, named, put]
        rfl
      · simp only [Acts, length, item]
        exact ⟨trivial, trivial⟩

theorem del_serves (h : Sound vec) (p : Place) (keep : Bool) : Serves vec (.del p keep) := by
  have length := items_length h.toShaped
  have named : delAt vec p = covecDel vec (p.itemIndex vec.size) := by cases p <;> rfl
  have deleted := covecDel_item h (p.itemIndex vec.size)
  rw [← p.item_eq] at deleted
  cases item : p.item vec.size with
  | some k =>
      rw [item] at deleted
      obtain ⟨vec', ran, sound, -, same⟩ := deleted
      have inside := Place.item_lt item
      have there : (items vec)[k]?.isSome := by
        rw [List.getElem?_eq_getElem (length ▸ inside)]
        rfl
      refine ⟨if keep then .item (items vec)[k]? else .status true, vec', ?_, sound, ?_,
        by simp [Call.refused, item]⟩
      · rw [covecServe, named, ran, ← there]
        rfl
      · simp only [Acts, length, item]
        exact ⟨trivial, same⟩
  | none =>
      rw [item] at deleted
      refine ⟨if keep then .item none else .status false, vec, ?_, h, ?_, fun _ => rfl⟩
      · rw [covecServe, named, deleted]
        rfl
      · simp only [Acts, length, item]
        exact ⟨trivial, trivial⟩

theorem swap_serves (h : Sound vec) (i j : Int) : Serves vec (.swap i j) := by
  have length := items_length h.toShaped
  have swapped := covecSwap_items h i j
  cases one : (Place.index i).item vec.size with
  | none =>
      rw [one] at swapped
      refine ⟨.nothing, vec, ?_, h, ⟨rfl, ?_⟩, fun _ => rfl⟩
      · rw [covecServe, swapped]
        rfl
      · rw [length, one]
  | some a =>
      cases two : (Place.index j).item vec.size with
      | none =>
          rw [one, two] at swapped
          refine ⟨.nothing, vec, ?_, h, ⟨rfl, ?_⟩, fun _ => rfl⟩
          · rw [covecServe, swapped]
            rfl
          · rw [length, one, two]
      | some b =>
          rw [one, two] at swapped
          obtain ⟨vec', ran, sound, -, same⟩ := swapped
          refine ⟨.nothing, vec', ?_, sound, ⟨rfl, ?_⟩, by simp [Call.refused, one, two]⟩
          · rw [covecServe, ran]
            rfl
          · rw [length, one, two]
            exact same

theorem serve_acts (h : Sound vec) (call : Call α) (room : Affordable vec call) :
    Serves vec call := by
  cases call with
  | push p x => exact push_serves h p x room
  | get p => exact get_serves h p
  | set p x => exact set_serves h p x
  | del p keep => exact del_serves h p keep
  | swap i j => exact swap_serves h i j
  | growcap cap =>
      obtain ⟨vec', ran, sound, -, same⟩ := covecGrowcap_items h cap.toNat room
      refine ⟨.nothing, vec', ?_, sound, ⟨rfl, same⟩, nofun⟩
      rw [covecServe, ran]
      rfl
  | resize n =>
      obtain ⟨vec', ran, sound, -, long, kept⟩ := covecResize_items h n room
      refine ⟨.nothing, vec', ?_, sound, ⟨rfl, long, ?_⟩, nofun⟩
      · rw [covecServe, ran]
        rfl
      · rw [items_length h.toShaped]
        exact kept
  | clear =>
      have sound : Sound (covecClear vec) := ⟨⟨rfl, Nat.le_refl 0⟩, by simp [covecClear]⟩
      exact ⟨.nothing, covecClear vec, rfl, sound, ⟨rfl, rfl⟩, nofun⟩

/-- A call for what is not there fails and leaves everything as it was, capacity included. -/
theorem serve_refused (h : Sound vec) (call : Call α) (refused : call.refused vec.size) :
    ∃ out, covecServe vec call = .ok (out, vec) ∧ Acts (items vec) call out (items vec) := by
  have asks : demand vec call = 0 := by
    cases call with
    | push p x =>
        refine if_neg fun full => ?_
        rw [Call.refused, Option.isNone_iff_eq_none] at refused
        rw [refused] at full
        cases full.1
    | growcap | resize => cases refused
    | _ => rfl
  have room : Affordable vec call := by
    rw [Affordable, asks, Nat.zero_mul]
    decide
  obtain ⟨out, vec', ran, -, acts, same⟩ := serve_acts h call room
  rw [same refused] at ran acts
  exact ⟨out, ran, acts⟩

theorem run_acts (h : Sound vec) (calls : List (Call α))
    (affordable : Runs.Along after Affordable vec calls) : ∃ outs vec',
    covecRun vec calls = .ok (outs, vec') ∧ Sound vec' ∧
      ActsAll (items vec) calls outs (items vec') := by
  induction calls generalizing vec with
  | nil => exact ⟨[], vec, rfl, h, rfl, rfl⟩
  | cons call rest ih =>
      obtain ⟨out, vec₁, ran, sound, acts, -⟩ := serve_acts h call affordable.1
      have next : after vec call = .ok vec₁ := by rw [after, ran]; rfl
      obtain ⟨outs, vec₂, later, sound₂, all⟩ := ih sound (affordable.2 vec₁ next)
      refine ⟨out :: outs, vec₂, ?_, sound₂, _, acts, all⟩
      rw [covecRun, ran, ok_bind]
      simp only
      rw [later]
      rfl

end Calls

/-- Every sequence of calls on a new vector that never asks for 2 GiB or more returns, has the
results of the list calls and leaves the items of the list. All cells are within the capacity,
and a call with an index out of range fails and changes nothing. -/
theorem covec_refines_list (itemsize : Nat) (calls : List (Call α))
    (affordable : Runs.Along after Affordable (covecNew α itemsize) calls) :
    ∃ outs vec, covecRun (covecNew α itemsize) calls = .ok (outs, vec) ∧
      ActsAll [] calls outs (items vec) ∧ (items vec).length = vec.size ∧ vec.size ≤ vec.cap ∧
      vec.data.length = vec.cap ∧
      ∀ call, call.refused vec.size → ∃ out, covecServe vec call = .ok (out, vec) ∧
        Acts (items vec) call out (items vec) := by
  have new : Sound (covecNew α itemsize) := ⟨⟨rfl, Nat.le_refl 0⟩, by simp [covecNew]⟩
  obtain ⟨outs, vec, ran, sound, all⟩ := run_acts new calls affordable
  exact ⟨outs, vec, ran, all, items_length sound.toShaped, sound.fits, sound.cap,
    fun call => serve_refused sound call⟩

/-- Items are pushed from both ends and in front of the last one, and two change places. -/
def bothEnds : List (Call Nat) :=
  [.push .tail 1, .push .head 2, .push (.index (-1)) 3, .swap 0 (-1), .del (.index (-4)) true,
    .get .tail]

theorem covec_refines_list_bothEnds : ∃ outs vec,
    covecRun (covecNew Nat 4) bothEnds = .ok (outs, vec) ∧ ActsAll [] bothEnds outs (items vec) ∧
      vec.size ≤ vec.cap := by
  obtain ⟨outs, vec, ran, all, -, fits, -⟩ := covec_refines_list 4 bothEnds (by decide +kernel)
  exact ⟨outs, vec, ran, all, fits⟩

end Colinlib.Guarantees.VectorList
