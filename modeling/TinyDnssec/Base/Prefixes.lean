import Mathlib.Data.List.Basic
import Mathlib.Data.List.Infix

/-!
# Searching for the longest prefix

A table that is asked for the prefixes of a text one after the other, the longest first, answers with
what it has for the longest one that it has at all, among the lengths that are tried.
-/

namespace Prefixes

universe u v
variable {α : Type u} {β : Type v} (find : List α → Option β) (s : List α)

/-- The first answer for the prefixes of these lengths. -/
def search (lengths : List Nat) : Option β := lengths.findSome? fun n => find (s.take n)

/-- What the search finds: the longest prefix of a length that is tried, or that there is none. -/
inductive Finds (lengths : List Nat) : Option β → Prop
  | longest {p : List α} {b : β} (is : p <+: s) (tried : p.length ∈ lengths) (there : find p = some b)
      (longest : ∀ p', p' <+: s → p'.length ∈ lengths → (find p').isSome → p'.length ≤ p.length) :
      Finds lengths (some b)
  | none (nothing : ∀ p, p <+: s → p.length ∈ lengths → find p = none) : Finds lengths none

theorem eq_take {p : List α} (h : p <+: s) : p = s.take p.length := List.prefix_iff_eq_take.mp h

/-- The lengths fall, and none of them is longer than the text. -/
theorem search_finds {lengths : List Nat} (falling : lengths.Pairwise (· > ·))
    (within : ∀ n ∈ lengths, n ≤ s.length) : Finds find s lengths (search find s lengths) := by
  induction lengths with
  | nil => exact .none fun p _ tried => absurd tried List.not_mem_nil
  | cons n lengths ih =>
    obtain ⟨below, falling⟩ := List.pairwise_cons.mp falling
    have size : (s.take n).length = n := by
      rw [List.length_take]
      exact Nat.min_eq_left (within n List.mem_cons_self)
    unfold search
    rw [List.findSome?_cons]
    cases hfind : find (s.take n) with
    | some b =>
      refine .longest (List.take_prefix n s) ?_ hfind fun p' _ tried _ => ?_
      · rw [size]
        exact List.mem_cons_self
      · rw [size]
        rcases List.mem_cons.mp tried with same | later
        · exact same.le
        · exact (below _ later).le
    | none =>
      have not_now {p : List α} (is : p <+: s) (same : p.length = n) : find p = none := by
        rw [eq_take s is, same]
        exact hfind
      have rest := ih falling fun m hm => within m (List.mem_cons_of_mem n hm)
      unfold search at rest
      generalize lengths.findSome? (fun n => find (s.take n)) = found at rest
      cases rest with
      | longest is tried there longest =>
        refine .longest is (List.mem_cons_of_mem n tried) there fun p' is' tried' found => ?_
        rcases List.mem_cons.mp tried' with same | later
        · rw [not_now is' same] at found
          cases found
        · exact longest p' is' later found
      | none nothing =>
        refine .none fun p is tried => ?_
        rcases List.mem_cons.mp tried with same | later
        · exact not_now is same
        · exact nothing p is later

end Prefixes
