import Mathlib.Algebra.BigOperators.Group.Finset.Piecewise
import Mathlib.Data.Fintype.Card

/-!
# Runs of a machine, and tables it counts

A machine is a function from a state and an event to the next state. `visited` lists the states of
a run and `Along` says something of each of its steps; when one step keeps an invariant exactly
under some condition, a run does so exactly when the condition holds all along (`visited_iff`).

The second part is about the tables such machines keep their clients in: how the number of entries
of a kind changes with one entry.
-/

namespace Run

/-- A run in which something decreases again and again until it has ended does end. -/
theorem eventually {ended : Nat → Prop} (left : Nat → Nat)
    (progress : ∀ t, ¬ ended t → ∃ u, left u < left t) (t : Nat) : ∃ u, ended u := by
  induction hleft : left t using Nat.strongRecOn generalizing t with
  | ind n ih =>
    by_cases done : ended t
    · exact ⟨t, done⟩
    · obtain ⟨u, less⟩ := progress t done
      exact ih (left u) (by omega) u rfl

section Machine

variable {σ ε : Type} (step : σ → ε → σ)

/-- The states of a run, the first one included. -/
def visited : σ → List ε → List σ
  | s, [] => [s]
  | s, e :: es => s :: visited (step s e) es

/-- Every step of a run is of a kind. -/
def Along (P : σ → ε → Prop) : σ → List ε → Prop
  | _, [] => True
  | s, e :: es => P s e ∧ Along P (step s e) es

instance decidableAlong (P : σ → ε → Prop) [∀ s e, Decidable (P s e)] :
    ∀ s es, Decidable (Along step P s es)
  | _, [] => inferInstanceAs (Decidable True)
  | s, _ :: es => @instDecidableAnd _ _ _ (decidableAlong P (step s _) es)

variable {step}

theorem visited_iff {Inv : σ → Prop} {P : σ → ε → Prop}
    (one : ∀ s e, Inv s → (Inv (step s e) ↔ P s e)) {s : σ} (start : Inv s) (es : List ε) :
    (∀ t ∈ visited step s es, Inv t) ↔ Along step P s es := by
  induction es generalizing s with
  | nil =>
    refine ⟨fun _ => trivial, fun _ t ht => ?_⟩
    rw [visited, List.mem_singleton] at ht
    rw [ht]
    exact start
  | cons e es ih =>
    constructor
    · intro all
      have next : Inv (step s e) := by
        refine all _ (List.mem_cons_of_mem _ ?_)
        cases es <;> exact List.mem_cons_self
      refine ⟨(one s e start).mp next, (ih next).mp fun t ht => ?_⟩
      exact all t (List.mem_cons_of_mem _ ht)
    · rintro ⟨fits, rest⟩ t ht
      rcases List.mem_cons.mp ht with rfl | ht
      · exact start
      · exact (ih ((one s e start).mpr fits)).mpr rest t ht

end Machine

section Table

variable {ι κ : Type} [Fintype ι] [DecidableEq ι] (p : κ → Prop) [DecidablePred p]

/-- How many entries of a table are of a kind. -/
def tally (table : ι → κ) : Nat := (Finset.univ.filter fun j => p (table j)).card

theorem tally_update (table : ι → κ) (j : ι) (x : κ) :
    tally p (Function.update table j x) + (if p (table j) then 1 else 0) =
      tally p table + if p x then 1 else 0 := by
  have split : ∀ f : ι → κ, tally p f =
      (∑ i ∈ Finset.univ.erase j, if p (f i) then 1 else 0) + if p (f j) then 1 else 0 := by
    intro f
    unfold tally
    rw [Finset.card_filter, Finset.sum_erase_add _ _ (Finset.mem_univ j)]
  have others : (∑ i ∈ Finset.univ.erase j, if p (Function.update table j x i) then 1 else 0) =
      ∑ i ∈ Finset.univ.erase j, if p (table i) then 1 else 0 := by
    refine Finset.sum_congr rfl fun i hi => ?_
    rw [Function.update_of_ne (Finset.ne_of_mem_erase hi)]
  rw [split (Function.update table j x), split table, others, Function.update_self]
  omega

end Table

end Run
