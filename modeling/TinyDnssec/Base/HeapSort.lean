import Mathlib.Algebra.Group.Nat.Defs
import Mathlib.Data.List.GetD
import Mathlib.Order.Lattice

/-!
# Heap sort with two cursors

The heap sort that builds its heap and takes it down again in one loop. Slots count from one, the
children of slot `p` are `2 * p` and `2 * p + 1`, and the greatest value stands in slot `1`. An
element on its way to its slot is held outside the array: its hole first goes down to a leaf,
always to the greater child, and then up again until the parent is not smaller.

The comparison is a parameter, tied to a linear order by a key. `Ordered` is the heap on the slots
from `i` on, and `Hole` the heap with one slot left out of it, which either direction of a sift
keeps; `Moves` says that the walk of a hole takes nothing away and adds nothing.
-/

namespace HeapSort

section Slots

variable {α : Type} [Inhabited α]

/-- Slot `p`, counted from one. -/
def slot (a : List α) (p : Nat) : α := a.getD (p - 1) default

def put (a : List α) (p : Nat) (x : α) : List α := a.set (p - 1) x

omit [Inhabited α] in
@[simp] theorem length_put (a : List α) (p : Nat) (x : α) : (put a p x).length = a.length :=
  List.length_set

theorem slot_put_self {a : List α} {p : Nat} (one : 1 ≤ p) (inside : p ≤ a.length) (x : α) :
    slot (put a p x) p = x := by
  unfold slot put
  rw [List.getD_eq_getElem?_getD, List.getElem?_set_self (by omega), Option.getD_some]

theorem slot_put_other {a : List α} {p q : Nat} (hp : 1 ≤ p) (hq : 1 ≤ q) (apart : q ≠ p) (x : α) :
    slot (put a p x) q = slot a q := by
  unfold slot put
  rw [List.getD_eq_getElem?_getD, List.getElem?_set_ne (by omega), ← List.getD_eq_getElem?_getD]

theorem put_slot (a : List α) (p : Nat) : put a p (slot a p) = a := by
  unfold put slot
  rcases Nat.lt_or_ge (p - 1) a.length with inside | outside
  · rw [List.getD_eq_getElem _ _ inside, List.set_getElem_self]
  · rw [List.set_eq_of_length_le outside]

omit [Inhabited α] in
theorem put_put (a : List α) (p : Nat) (x y : α) : put (put a p x) p y = put a p y :=
  List.set_set ..

/-- Moving a value into the hole, and the hole to where the value was. -/
theorem put_put_perm {a : List α} {p q : Nat} (hp : 1 ≤ p) (hq : 1 ≤ q) (pIn : p ≤ a.length)
    (qIn : q ≤ a.length) (apart : p ≠ q) (x : α) :
    (put (put a q (slot a p)) p x).Perm (put a q x) := by
  have inQ : q - 1 < (put a q x).length := by
    rw [length_put]
    omega
  have inP : p - 1 < (put a q x).length := by
    rw [length_put]
    omega
  have swap := List.set_set_perm inQ inP
  have moved : (put a q x)[p - 1] = slot a p :=
    (List.getElem_set_ne (by omega) inP).trans (List.getD_eq_getElem ..).symm
  have held : (put a q x)[q - 1] = x := List.getElem_set_self inQ
  rw [moved, held] at swap
  have again : (put a q x).set (q - 1) (slot a p) = put a q (slot a p) := put_put a q x _
  rw [again] at swap
  exact swap

/-- A hole that held `x` goes from `q` to `q'` below slot `j`: with `x` put back, the values are
the same ones, and nothing behind `j` has moved. -/
structure Moves (x : α) (j : Nat) (a : List α) (q : Nat) (a' : List α) (q' : Nat) : Prop where
  length : a'.length = a.length
  perm : (put a' q' x).Perm (put a q x)
  behind : ∀ p, j < p → slot a' p = slot a p
  within : ∀ P : α → Prop, (∀ p, 1 ≤ p → p ≤ j → P (slot a p)) → ∀ p, 1 ≤ p → p ≤ j → P (slot a' p)

theorem Moves.refl (x : α) (j : Nat) (a : List α) (q : Nat) : Moves x j a q a q :=
  ⟨rfl, .refl _, fun _ _ => rfl, fun _ h => h⟩

theorem Moves.trans {x : α} {j : Nat} {a a' a'' : List α} {q q' q'' : Nat}
    (first : Moves x j a q a' q') (second : Moves x j a' q' a'' q'') : Moves x j a q a'' q'' where
  length := second.length.trans first.length
  perm := second.perm.trans first.perm
  behind p h := (second.behind p h).trans (first.behind p h)
  within P h := second.within P (first.within P h)

theorem Moves.step {j : Nat} {a : List α} {p q : Nat} (hp : 1 ≤ p) (hq : 1 ≤ q) (pIn : p ≤ j)
    (qIn : q ≤ j) (room : j ≤ a.length) (apart : p ≠ q) (x : α) :
    Moves x j a q (put a q (slot a p)) p where
  length := length_put ..
  perm := put_put_perm hp hq (by omega) (by omega) apart x
  behind r h := slot_put_other hq (by omega) (by omega) _
  within P h r one inside := by
    by_cases here : r = q
    · rw [here, slot_put_self hq (by omega)]
      exact h p hp pIn
    · rw [slot_put_other hq one here]
      exact h r one inside

end Slots

/-! ## The sort -/

section Cursors

variable {α : Type} [Inhabited α] (smaller : α → α → Bool)

/-- The hole at `q` goes down to a leaf. The guard `0 < q` holds of every slot; it lets the
recursion be seen to end. -/
def siftDown (j q : Nat) (a : List α) : Nat × List α :=
  if 0 < q ∧ q * 2 < j then
    let p := if smaller (slot a (q * 2 + 1)) (slot a (q * 2)) then q * 2 else q * 2 + 1
    siftDown j p (put a q (slot a p))
  else if q * 2 = j then (q * 2, put a q (slot a (q * 2)))
  else (q, a)
termination_by j - q
decreasing_by split <;> omega

/-- The hole at `q` goes up again, no further than `i`, while its parent is smaller than `x`. -/
def siftUp (i : Nat) (x : α) (q : Nat) (a : List α) : Nat × List α :=
  if q > i ∧ smaller (slot a (q / 2)) x then siftUp i x (q / 2) (put a q (slot a (q / 2)))
  else (q, a)
termination_by q
decreasing_by omega

/-- `x` goes to its slot among `i` to `j`; the hole it came from is at `i`. -/
def sift (i j : Nat) (x : α) (a : List α) : List α :=
  let (q, a) := siftDown smaller j i a
  let (q, a) := siftUp smaller i x q a
  put a q x

/-- The main loop: while `i > 1` the heap grows to the front, then it shrinks from the back. -/
def sortLoop (i j : Nat) (a : List α) : List α :=
  if j > 1 then
    if i > 1 then sortLoop (i - 1) j (sift smaller (i - 1) j (slot a (i - 1)) a)
    else sortLoop i (j - 1) (sift smaller i (j - 1) (slot a j) (put a j (slot a i)))
  else a
termination_by i + j

def sort (a : List α) : List α := sortLoop smaller a.length a.length a

end Cursors

/-! ## The heap and its hole -/

section Heap

variable {α β : Type} [Inhabited α] [LinearOrder β] (key : α → β)

/-- Every slot from `i` to `j` with a parent there is not greater than its parent. -/
def Ordered (a : List α) (i j : Nat) : Prop :=
  ∀ p, i ≤ p / 2 → p ≤ j → key (slot a p) ≤ key (slot a (p / 2))

/-- The heap on the slots from `i` to `j`, but for the slot `q`: what does not touch `q` is in
order, and so are the children of `q` with the parent of `q`. -/
structure Hole (a : List α) (i j q : Nat) : Prop where
  one : 1 ≤ i
  under : ∃ n, q / 2 ^ n = i
  inside : q ≤ j
  room : j ≤ a.length
  apart : ∀ p, i ≤ p / 2 → p ≤ j → p ≠ q → p / 2 ≠ q → key (slot a p) ≤ key (slot a (p / 2))
  grand : ∀ p, p / 2 = q → p ≤ j → i ≤ q / 2 → key (slot a p) ≤ key (slot a (q / 2))

variable {key}

theorem Hole.le {a : List α} {i j q : Nat} (hole : Hole key a i j q) : i ≤ q := by
  obtain ⟨n, hn⟩ := hole.under
  rw [← hn]
  exact Nat.div_le_self ..

/-- A hole below slot `i` has its parent there too. -/
theorem Hole.parent {a : List α} {i j q : Nat} (hole : Hole key a i j q) (below : i < q) :
    ∃ n, q / 2 / 2 ^ n = i := by
  obtain ⟨n, hn⟩ := hole.under
  cases n with
  | zero => rw [Nat.pow_zero, Nat.div_one] at hn; omega
  | succ n => exact ⟨n, by rw [Nat.div_div_eq_div_mul, ← Nat.pow_succ']; exact hn⟩

theorem Hole.of_ordered {a : List α} {i j : Nat} (one : 1 ≤ i) (inside : i ≤ j)
    (room : j ≤ a.length) (ordered : Ordered key a (i + 1) j) : Hole key a i j i where
  one := one
  under := ⟨0, by rw [Nat.pow_zero, Nat.div_one]⟩
  inside := inside
  room := room
  apart p parent h _ other := ordered p (by omega) h
  grand p _ _ h := absurd h (by omega)

theorem Hole.down {a : List α} {i j q p : Nat} (hole : Hole key a i j q) (child : p / 2 = q)
    (inside : p ≤ j) (greatest : ∀ s, s / 2 = q → s ≤ j → key (slot a s) ≤ key (slot a p)) :
    Hole key (put a q (slot a p)) i j p := by
  have one := hole.one
  have hle := hole.le
  have room := hole.room
  constructor
  case one => exact one
  case under =>
    obtain ⟨n, hn⟩ := hole.under
    exact ⟨n + 1, by rw [Nat.pow_succ', ← Nat.div_div_eq_div_mul, child, hn]⟩
  case inside => exact inside
  case room => rw [length_put]; exact room
  case apart =>
    intro s parent hs other above
    by_cases here : s = q
    · rw [here, slot_put_self (by omega) (by omega), slot_put_other (by omega) (by omega) (by omega)]
      exact hole.grand p child inside (here ▸ parent)
    · rw [slot_put_other (by omega) (by omega) here]
      by_cases sibling : s / 2 = q
      · rw [sibling, slot_put_self (by omega) (by omega)]
        exact greatest s sibling hs
      · rw [slot_put_other (by omega) (by omega) sibling]
        exact hole.apart s parent hs here sibling
  case grand =>
    intro c hc inC _
    rw [slot_put_other (by omega) (by omega) (by omega), child, slot_put_self (by omega) (by omega)]
    have order := hole.apart c (by omega) inC (by omega) (by omega)
    rwa [hc] at order

theorem Hole.up {a : List α} {i j q : Nat} {x : α} (hole : Hole key a i j q) (below : i < q)
    (less : key (slot a (q / 2)) < key x) :
    Hole key (put a q (slot a (q / 2))) i j (q / 2) ∧
      ∀ c, c / 2 = q / 2 → c ≤ j → key (slot (put a q (slot a (q / 2))) c) ≤ key x := by
  have one := hole.one
  have under := hole.parent below
  have hle : i ≤ q / 2 := by
    obtain ⟨n, hn⟩ := under
    rw [← hn]
    exact Nat.div_le_self ..
  have inside := hole.inside
  have room := hole.room
  -- the other child of the parent, which the hole does not touch
  have sibling : ∀ c, c / 2 = q / 2 → c ≤ j → c ≠ q → key (slot a c) ≤ key (slot a (q / 2)) := by
    intro c hc inC other
    have order := hole.apart c (by omega) inC other (by omega)
    rwa [hc] at order
  refine ⟨?_, ?_⟩
  · constructor
    case one => exact one
    case under => exact under
    case inside => omega
    case room => rw [length_put]; exact room
    case apart =>
      intro s parent hs other above
      by_cases here : s = q
      · exact absurd (congrArg (· / 2) here) above
      · rw [slot_put_other (by omega) (by omega) here]
        by_cases child : s / 2 = q
        · rw [child, slot_put_self (by omega) (by omega)]
          exact hole.grand s child hs hle
        · rw [slot_put_other (by omega) (by omega) child]
          exact hole.apart s parent hs here child
    case grand =>
      intro c hc inC parent
      rw [slot_put_other (q := q / 2 / 2) (by omega) (by omega) (by omega)]
      have top : key (slot a (q / 2)) ≤ key (slot a (q / 2 / 2)) :=
        hole.apart (q / 2) parent (by omega) (by omega) (by omega)
      by_cases here : c = q
      · rw [here, slot_put_self (by omega) (by omega)]
        exact top
      · rw [slot_put_other (by omega) (by omega) here]
        exact (sibling c hc inC here).trans top
  · intro c hc inC
    by_cases here : c = q
    · rw [here, slot_put_self (by omega) (by omega)]
      exact less.le
    · rw [slot_put_other (by omega) (by omega) here]
      exact (sibling c hc inC here).trans less.le

/-- With a value that fits, the hole is closed. -/
theorem Hole.close {a : List α} {i j q : Nat} {x : α} (hole : Hole key a i j q)
    (covers : ∀ c, c / 2 = q → c ≤ j → key (slot a c) ≤ key x)
    (fits : i < q → key x ≤ key (slot a (q / 2))) : Ordered key (put a q x) i j := by
  have one := hole.one
  have hle := hole.le
  have inside := hole.inside
  have room := hole.room
  intro p parent inP
  by_cases here : p = q
  · rw [here, slot_put_self (by omega) (by omega), slot_put_other (by omega) (by omega) (by omega)]
    exact fits (by omega)
  · rw [slot_put_other (by omega) (by omega) here]
    by_cases child : p / 2 = q
    · rw [child, slot_put_self (by omega) (by omega)]
      exact covers p child inP
    · rw [slot_put_other (by omega) (by omega) child]
      exact hole.apart p parent inP here child

/-- The first slot of a heap holds its greatest value. -/
theorem Ordered.root {a : List α} {j : Nat} (ordered : Ordered key a 1 j) :
    ∀ p, 1 ≤ p → p ≤ j → key (slot a p) ≤ key (slot a 1) := by
  intro p
  induction p using Nat.strongRecOn with
  | ind p ih =>
    intro one inside
    rcases Nat.lt_or_ge 1 p with below | root
    · exact (ordered p (by omega) inside).trans (ih (p / 2) (by omega) (by omega) (by omega))
    · rw [show p = 1 by omega]

end Heap

/-! ## What the sort does -/

section Correct

variable {α β : Type} [Inhabited α] [LinearOrder β] {key : α → β} {smaller : α → α → Bool}
  (lt_iff : ∀ x y, smaller x y = true ↔ key x < key y)
include lt_iff

theorem siftDown_spec {a : List α} {i j q : Nat} (hole : Hole key a i j q) (x : α) :
    Hole key (siftDown smaller j q a).2 i j (siftDown smaller j q a).1 ∧
      j < (siftDown smaller j q a).1 * 2 ∧
      Moves x j a q (siftDown smaller j q a).2 (siftDown smaller j q a).1 := by
  have one := hole.one
  have hle := hole.le
  have inside := hole.inside
  have room := hole.room
  fun_induction siftDown smaller j q a with
  | case1 q a inner p ih =>
    have child : p / 2 = q ∧ p ≤ j := by
      unfold p
      split <;> omega
    have greatest : ∀ s, s / 2 = q → s ≤ j → key (slot a s) ≤ key (slot a p) := by
      intro s hs _
      have two : s = q * 2 ∨ s = q * 2 + 1 := by omega
      by_cases less : smaller (slot a (q * 2 + 1)) (slot a (q * 2))
      · have hp : p = q * 2 := if_pos less
        rw [hp]
        rcases two with rfl | rfl
        · exact le_refl _
        · exact ((lt_iff _ _).mp less).le
      · have hp : p = q * 2 + 1 := if_neg less
        rw [hp]
        rcases two with rfl | rfl
        · exact not_lt.mp fun h => less ((lt_iff _ _).mpr h)
        · exact le_refl _
    have next := hole.down child.1 child.2 greatest
    obtain ⟨leaf, deep, moves⟩ := ih next next.le next.inside next.room
    exact ⟨leaf, deep, .trans (.step (by omega) (by omega) child.2 (by omega) room (by omega) x) moves⟩
  | case2 q a outer last =>
    refine ⟨hole.down (by omega) (by omega) ?_, by omega,
      .step (by omega) (by omega) (by omega) (by omega) room (by omega) x⟩
    intro s hs inS
    rw [show s = q * 2 by omega]
  | case3 q a outer last => exact ⟨hole, by omega, .refl ..⟩

theorem siftUp_spec {a : List α} {i j q : Nat} {x : α} (hole : Hole key a i j q)
    (covers : ∀ c, c / 2 = q → c ≤ j → key (slot a c) ≤ key x) :
    Ordered key (put (siftUp smaller i x q a).2 (siftUp smaller i x q a).1 x) i j ∧
      Moves x j a q (siftUp smaller i x q a).2 (siftUp smaller i x q a).1 ∧
      i ≤ (siftUp smaller i x q a).1 ∧ (siftUp smaller i x q a).1 ≤ j := by
  fun_induction siftUp smaller i x q a with
  | case1 q a up ih =>
    have one := hole.one
    have inside := hole.inside
    have upper := hole.up up.1 ((lt_iff _ _).mp up.2)
    obtain ⟨ordered, moves, top, bottom⟩ := ih upper.1 upper.2
    have hle := upper.1.le
    refine ⟨ordered, .trans ?_ moves, top, bottom⟩
    exact .step (by omega) (by omega) (by omega) inside hole.room (by omega) x
  | case2 q a stop =>
    refine ⟨hole.close covers fun below => ?_, .refl .., hole.le, hole.inside⟩
    exact not_lt.mp fun h => stop ⟨below, (lt_iff _ _).mpr h⟩

/-- One sift makes a heap from slot `i` out of one from `i + 1`, with the same values. -/
theorem sift_spec {a : List α} {i j : Nat} {x : α} (one : 1 ≤ i) (inside : i ≤ j)
    (room : j ≤ a.length) (ordered : Ordered key a (i + 1) j) :
    Ordered key (sift smaller i j x a) i j ∧ (sift smaller i j x a).length = a.length ∧
      (sift smaller i j x a).Perm (put a i x) ∧
      (∀ p, j < p → slot (sift smaller i j x a) p = slot a p) ∧
      ∀ P : α → Prop, P x → (∀ p, 1 ≤ p → p ≤ j → P (slot a p)) →
        ∀ p, 1 ≤ p → p ≤ j → P (slot (sift smaller i j x a) p) := by
  obtain ⟨leaf, deep, down⟩ := siftDown_spec lt_iff (Hole.of_ordered one inside room ordered) x
  obtain ⟨heap, up, top, bottom⟩ := siftUp_spec (x := x) lt_iff leaf fun c hc inC =>
    absurd (show (siftDown smaller j i a).1 * 2 ≤ c by omega) (by omega)
  have moves := down.trans up
  refine ⟨heap, (length_put ..).trans moves.length, moves.perm, ?_, ?_⟩
  · intro p behind
    exact (slot_put_other (by omega) (by omega) (by omega) x).trans (moves.behind p behind)
  · intro P hx h p hp inP
    have length := moves.length
    unfold sift
    show P (slot (put _ _ x) p)
    by_cases here : p = (siftUp smaller i x (siftDown smaller j i a).1 (siftDown smaller j i a).2).1
    · rw [here, slot_put_self (by omega) (by omega)]
      exact hx
    · rw [slot_put_other (by omega) hp here]
      exact moves.within P h p hp inP

/-- The slots behind `j` are in their places: nothing in front of one of them is greater. -/
def Settled (key : α → β) (a : List α) (j k : Nat) : Prop :=
  ∀ p q, 1 ≤ p → p < q → j < q → q ≤ k → key (slot a p) ≤ key (slot a q)

/-- What holds whenever the main loop is entered: a heap from `i` to `j`, and the greatest values
settled behind it. Until the heap reaches slot `1`, nothing is settled. -/
structure Sorting (key : α → β) (a : List α) (i j : Nat) : Prop where
  one : 1 ≤ i
  inside : i ≤ j
  room : j ≤ a.length
  ordered : Ordered key a i j
  settled : Settled key a j a.length
  growing : 1 < i → j = a.length

/-- The heap takes in one slot more at the front. -/
theorem Sorting.grow {a : List α} {i j : Nat} (sorting : Sorting key a i j) (more : 1 < i) :
    Sorting key (sift smaller (i - 1) j (slot a (i - 1)) a) (i - 1) j ∧
      (sift smaller (i - 1) j (slot a (i - 1)) a).Perm a := by
  have inside := sorting.inside
  have whole := sorting.growing more
  obtain ⟨heap, length, perm, _, _⟩ := sift_spec (x := slot a (i - 1)) lt_iff (i := i - 1)
    (by omega) (by omega) sorting.room (by rw [Nat.sub_add_cancel (by omega)]; exact sorting.ordered)
  rw [put_slot] at perm
  refine ⟨⟨by omega, by omega, by omega, heap, ?_, fun _ => by omega⟩, perm⟩
  intro p q _ _ behind inQ
  omega

/-- The root goes to the end of the heap, which loses a slot. -/
theorem Sorting.shrink {a : List α} {j : Nat} (sorting : Sorting key a 1 j) (more : 1 < j) :
    Sorting key (sift smaller 1 (j - 1) (slot a j) (put a j (slot a 1))) 1 (j - 1) ∧
      (sift smaller 1 (j - 1) (slot a j) (put a j (slot a 1))).Perm a := by
  have room := sorting.room
  have rest : Ordered key (put a j (slot a 1)) (1 + 1) (j - 1) := by
    intro p parent inside
    rw [slot_put_other (by omega) (by omega) (by omega),
      slot_put_other (by omega) (by omega) (by omega)]
    exact sorting.ordered p (by omega) (by omega)
  obtain ⟨heap, length, perm, behind, within⟩ := sift_spec (x := slot a j) lt_iff
    (Nat.le_refl 1) (by omega) (by rw [length_put]; omega) rest
  rw [length_put] at length
  refine ⟨⟨Nat.le_refl 1, by omega, by omega, heap, ?_, fun h => absurd h (by omega)⟩, ?_⟩
  · -- whatever is not greater than a settled value stays so wherever the sift takes it
    have stays : ∀ q, 1 ≤ q → (∀ p, 1 ≤ p → p ≤ j → key (slot a p) ≤ key (slot a q)) →
        ∀ p, 1 ≤ p → p ≤ j - 1 →
          key (slot (sift smaller 1 (j - 1) (slot a j) (put a j (slot a 1))) p) ≤
            key (slot a q) := by
      intro q _ most
      refine within (fun y => key y ≤ key (slot a q)) (most j (by omega) (Nat.le_refl j)) ?_
      intro p one inside
      rw [slot_put_other (by omega) one (by omega)]
      exact most p one (by omega)
    intro p q one lt after inQ
    rw [length] at inQ
    rw [behind q after]
    by_cases here : q = j
    · rw [here, slot_put_self (by omega) room]
      exact stays 1 (Nat.le_refl 1) sorting.ordered.root p one (by omega)
    · rw [slot_put_other (by omega) (by omega) here]
      have most : ∀ p, 1 ≤ p → p ≤ j → key (slot a p) ≤ key (slot a q) := fun p one inside =>
        sorting.settled p q one (by omega) (by omega) inQ
      rcases Nat.lt_or_ge (j - 1) p with out | within
      · rw [behind p out]
        by_cases last : p = j
        · rw [last, slot_put_self (by omega) room]
          exact most 1 (Nat.le_refl 1) (by omega)
        · rw [slot_put_other (by omega) one last]
          exact sorting.settled p q one lt (by omega) inQ
      · exact stays q (by omega) most p one within
  · refine perm.trans ?_
    have swap := put_put_perm (a := a) (p := 1) (q := j) (Nat.le_refl 1) (by omega) (by omega) room
      (by omega) (slot a j)
    rwa [put_slot] at swap

theorem sortLoop_spec {a : List α} {i j : Nat} (sorting : Sorting key a i j) :
    (sortLoop smaller i j a).Perm a ∧
      Settled key (sortLoop smaller i j a) 1 (sortLoop smaller i j a).length := by
  fun_induction sortLoop smaller i j a with
  | case1 i j a more front ih =>
    obtain ⟨next, perm⟩ := sorting.grow lt_iff front
    obtain ⟨done, settled⟩ := ih next
    exact ⟨done.trans perm, settled⟩
  | case2 i j a more back ih =>
    have one := sorting.one
    obtain rfl : i = 1 := by omega
    obtain ⟨next, perm⟩ := sorting.shrink lt_iff more
    obtain ⟨done, settled⟩ := ih next
    exact ⟨done.trans perm, settled⟩
  | case3 i j a stop =>
    have one := sorting.one
    have inside := sorting.inside
    obtain rfl : j = 1 := by omega
    exact ⟨.refl _, sorting.settled⟩

theorem sort_spec (a : List α) :
    (sort smaller a).Perm a ∧ Settled key (sort smaller a) 1 (sort smaller a).length := by
  rcases a with _ | ⟨x, a⟩
  · unfold sort sortLoop
    refine ⟨.refl _, ?_⟩
    intro p q _ _ _ inQ
    exact absurd inQ (by simp; omega)
  · refine sortLoop_spec lt_iff ⟨by simp, Nat.le_refl _, Nat.le_refl _, ?_, ?_, fun _ => rfl⟩
    · intro p parent inside
      rw [List.length_cons] at parent inside
      omega
    · intro p q _ _ behind inQ
      omega

/-- The result holds the same values as before. -/
theorem sort_perm (a : List α) : (sort smaller a).Perm a := (sort_spec lt_iff a).1

/-- The result is ascending. -/
theorem sort_pairwise (a : List α) : (sort smaller a).Pairwise fun x y => key x ≤ key y := by
  rw [List.pairwise_iff_getElem]
  intro p q hp hq lt
  have settled := (sort_spec lt_iff a).2 (p + 1) (q + 1) (by omega) (by omega)
    (by omega) (by omega)
  unfold slot at settled
  rw [List.getD_eq_getElem _ _ (by omega), List.getD_eq_getElem _ _ (by omega)] at settled
  exact settled

/-- With no key twice, the result is strictly ascending. -/
theorem sort_strict {a : List α} (distinct : (a.map key).Nodup) :
    (sort smaller a).Pairwise fun x y => smaller x y = true := by
  have nodup : ((sort smaller a).map key).Nodup :=
    ((sort_perm lt_iff a).map key).nodup_iff.mpr distinct
  have apart := List.pairwise_map.mp nodup
  refine ((sort_pairwise lt_iff a).and apart).imp ?_
  intro x y h
  exact (lt_iff x y).mpr (lt_of_le_of_ne h.1 h.2)

end Correct

end HeapSort
