import Mathlib.Data.List.Basic
import Mathlib.Data.List.Nodup

/-!
# Tables without two entries alike

A table is grown by appending what is not in it yet, where two entries count as one when a
comparison says so. As long as the comparison compares keys, the keys of a table are a set: what is
added is a member afterwards, nothing else is, and no key is there twice.

A loop that adds is a fold, and what it adds is what its rounds add.
-/

namespace Distinct

universe u v
variable {α : Type u} {κ : Type v}

/-- Append an entry unless there is one like it. -/
def add (same : α → α → Bool) (xs : List α) (x : α) : List α :=
  if xs.any (same · x) then xs else xs ++ [x]

/-- The comparison tells the key of `x` from those of the table. -/
def Compares (key : α → κ) (same : α → α → Bool) (xs : List α) (x : α) : Prop :=
  ∀ y ∈ xs, same y x = true ↔ key y = key x

variable {key : α → κ} {same : α → α → Bool} {xs : List α} {x : α}

theorem any_iff (h : Compares key same xs x) : xs.any (same · x) = true ↔ key x ∈ xs.map key := by
  rw [List.any_eq_true, List.mem_map]
  exact exists_congr fun y => and_congr_right fun hy => h y hy

theorem mem_keys_add (h : Compares key same xs x) {k : κ} :
    k ∈ (add same xs x).map key ↔ k ∈ xs.map key ∨ k = key x := by
  unfold add
  split
  · rename_i there
    constructor
    · exact Or.inl
    · rintro (old | rfl)
      · exact old
      · exact (any_iff h).mp there
  · rw [List.map_append, List.mem_append, List.map_singleton, List.mem_singleton]

theorem nodup_add (h : Compares key same xs x) (nodup : (xs.map key).Nodup) :
    ((add same xs x).map key).Nodup := by
  unfold add
  split
  · exact nodup
  · rename_i absent
    rw [List.map_append, List.map_singleton, List.nodup_append_comm, List.singleton_append,
      List.nodup_cons]
    exact ⟨fun there => absent ((any_iff h).mpr there), nodup⟩

theorem forall_add {P : α → Prop} (old : ∀ y ∈ xs, P y) (new : P x) :
    ∀ y ∈ add same xs x, P y := by
  unfold add
  split
  · exact old
  · intro y hy
    rcases List.mem_append.mp hy with there | there
    · exact old y there
    · rw [List.mem_singleton.mp there]
      exact new

/-- `s'` keeps `I`, and `Q i` is true of it where it was true of `s` or `P i` is. -/
structure Gains {σ ι : Type*} (I : σ → Prop) (Q : ι → σ → Prop) (P : ι → Prop) (s s' : σ) :
    Prop where
  kept : I s'
  gained : ∀ i, Q i s' ↔ Q i s ∨ P i

section

variable {σ ι : Type*} {I : σ → Prop} {Q : ι → σ → Prop}

/-- A loop gains what its rounds do. -/
theorem foldl_gains {f : σ → α → σ} {P : ι → α → Prop} {s : σ} (start : I s)
    (round : ∀ s, I s → ∀ x ∈ xs, Gains I Q (P · x) s (f s x)) :
    Gains I Q (fun i => ∃ x ∈ xs, P i x) s (xs.foldl f s) := by
  induction xs generalizing s with
  | nil => exact ⟨start, by simp⟩
  | cons x xs ih =>
    have first := round s start x List.mem_cons_self
    have rest := ih first.kept fun s hs y hy => round s hs y (List.mem_cons_of_mem x hy)
    refine ⟨rest.kept, fun i => ?_⟩
    rw [List.foldl_cons, rest.gained, first.gained, or_assoc]
    simp only [List.mem_cons, exists_eq_or_imp]

/-- A round that is made only for some of the items. -/
theorem guarded_gains {P : ι → Prop} {b : Bool} {s s' : σ} (start : I s)
    (round : b = true → Gains I Q P s s') :
    Gains I Q (fun i => b = true ∧ P i) s (if b then s' else s) := by
  cases b with
  | false => exact ⟨start, by simp⟩
  | true => exact ⟨(round rfl).kept, by simpa using (round rfl).gained⟩

end

end Distinct
