import Mathlib

/-!
# Lists linked by exclusive or

A list of places in which every item stores one number: the exclusive or of the places before and
behind it, an end counting as 0. Entered from a known neighbour, the number tells the other one, so
the list is walked from its head; the number of the last item is the place before it, so the list
is shortened at its tail without a walk.
-/

namespace XorList

/-- From `here`, entered from `before`, the links lead through the items and end there. -/
def Chain (link : Nat → Nat) : Nat → Nat → List Nat → Prop
  | before, here, [] => link here = before
  | before, here, next :: items => link here = before ^^^ next ∧ Chain link here next items

variable {link link' : Nat → Nat} {before here : Nat} {items : List Nat}

/-- A chain is about the links of its own places. -/
theorem Chain.congr (h : Chain link before here items)
    (same : ∀ p ∈ here :: items, link' p = link p) : Chain link' before here items := by
  induction items generalizing before here with
  | nil =>
    show link' here = before
    rw [same here List.mem_cons_self]
    exact h
  | cons next items ih =>
    obtain ⟨hlink, hrest⟩ := h
    refine ⟨?_, ih hrest fun p hp => same p (List.mem_cons_of_mem _ hp)⟩
    rw [same here List.mem_cons_self]
    exact hlink

/-- The link and the place one came from tell the next place. -/
theorem Chain.next (h : Chain link before here items) : before ^^^ link here = items.headD 0 := by
  cases items with
  | nil =>
    have hlink : link here = before := h
    rw [hlink, Nat.xor_self]
    rfl
  | cons next items =>
    rw [h.1, Nat.xor_xor_cancel_left]
    rfl

/-- An item put behind the head: three links change. -/
theorem Chain.push {new : Nat} (h : Chain link 0 here items) (head : link' here = new)
    (fresh : link' new = items.headD 0 ^^^ here)
    (first : ∀ p ∈ items.head?, link' p = link p ^^^ here ^^^ new)
    (others : ∀ p ∈ items.tail, link' p = link p) : Chain link' 0 here (new :: items) := by
  refine ⟨by rw [head, Nat.zero_xor], ?_⟩
  cases items with
  | nil =>
    show link' new = here
    rw [fresh]
    exact Nat.zero_xor here
  | cons next items =>
    obtain ⟨_, hrest⟩ := h
    refine ⟨by rw [fresh, List.headD_cons, Nat.xor_comm], ?_⟩
    have hfirst : link' next = link next ^^^ here ^^^ new := first next rfl
    -- only the link to the place before changes in the old first item
    cases items with
    | nil =>
      have hlink : link next = here := hrest
      show link' next = new
      rw [hfirst, hlink, Nat.xor_self, Nat.zero_xor]
    | cons next' items =>
      obtain ⟨hlink, htail⟩ := hrest
      refine ⟨?_, htail.congr others⟩
      rw [hfirst, hlink, Nat.xor_comm here, Nat.xor_xor_cancel_right, Nat.xor_comm]

/-- The last item stores the place before it. -/
theorem Chain.last {last : Nat} (h : Chain link before here (items ++ [last])) :
    link last = items.getLastD here := by
  induction items generalizing before here with
  | nil => exact h.2
  | cons next items ih =>
    rw [List.getLastD_cons]
    exact ih h.2

/-- The last item taken off: the link before it changes. -/
theorem Chain.pop {last : Nat} (h : Chain link before here (items ++ [last]))
    (distinct : (here :: items).Nodup)
    (tail : link' (items.getLastD here) = link (items.getLastD here) ^^^ last)
    (others : ∀ p ∈ here :: items, p ≠ items.getLastD here → link' p = link p) :
    Chain link' before here items := by
  induction items generalizing before here with
  | nil =>
    show link' here = before
    rw [show link' here = link here ^^^ last from tail, show link here = before ^^^ last from h.1,
      Nat.xor_xor_cancel_right]
  | cons next items ih =>
    rw [List.getLastD_cons] at tail others
    obtain ⟨hhere, hdistinct⟩ := List.nodup_cons.mp distinct
    have hne : here ≠ items.getLastD next := by
      intro heq
      rw [heq] at hhere
      exact hhere List.getLastD_mem_cons
    refine ⟨?_, ih h.2 hdistinct tail fun p hp => others p (List.mem_cons_of_mem _ hp)⟩
    rw [others here List.mem_cons_self hne]
    exact h.1

end XorList
