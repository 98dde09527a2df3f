import Mathlib.Data.List.TakeWhile
import Mathlib.Order.Lattice

/-!
# Blocks of neighbours

A list that is sorted by a key is divided into blocks of neighbours with the same key. Each key
then has one block, with everything that has this key.
-/

namespace Blocks

variable {α β : Type}

/-- Each block is its first entry and those behind it that are the same. -/
def blocks (same : α → α → Bool) : List α → List (α × List α)
  | [] => []
  | x :: rest => (x, rest.takeWhile (same x)) :: blocks same (rest.dropWhile (same x))
termination_by l => l.length
decreasing_by
  have shorter := (List.dropWhile_sublist (same x) (l := rest)).length_le
  rw [List.length_cons]
  omega

theorem mem_of_mem_blocks {same : α → α → Bool} {l : List α} {b : α × List α}
    (hb : b ∈ blocks same l) : b.1 ∈ l := by
  induction l using @blocks.induct _ same with
  | case1 =>
    rw [blocks] at hb
    cases hb
  | case2 x rest ih =>
    rw [blocks] at hb
    rcases List.mem_cons.mp hb with rfl | later
    · exact List.mem_cons_self
    · exact List.mem_cons_of_mem x ((List.dropWhile_sublist _).mem (ih later))

variable [LinearOrder β] {key : α → β} {same : α → α → Bool}
  (same_iff : ∀ x y, same x y = true ↔ key x = key y)
include same_iff

/-- What is left behind the first block of a sorted list has greater keys. -/
theorem lt_of_mem_dropWhile {x : α} {rest : List α}
    (sorted : (x :: rest).Pairwise fun x y => key x ≤ key y) :
    ∀ y ∈ rest.dropWhile (same x), key x < key y := by
  intro y hy
  obtain ⟨first, sorted⟩ := List.pairwise_cons.mp sorted
  cases hrest : rest.dropWhile (same x) with
  | nil =>
    rw [hrest] at hy
    cases hy
  | cons z later =>
    have inside : z ∈ rest := (List.dropWhile_sublist (same x)).mem (hrest ▸ List.mem_cons_self)
    have apart : key x ≠ key z := by
      intro alike
      have stopped := List.head_dropWhile_not (same x) (l := rest) (by rw [hrest]; simp)
      simp only [hrest, List.head_cons] at stopped
      rw [(same_iff x z).mpr alike] at stopped
      cases stopped
    have above : key x < key z := lt_of_le_of_ne (first z inside) apart
    have ordered := sorted.sublist (List.dropWhile_sublist (same x))
    rw [hrest] at hy ordered
    rcases List.mem_cons.mp hy with rfl | later'
    · exact above
    · exact above.trans_le ((List.pairwise_cons.mp ordered).1 y later')

/-- **One block a key**, with all that has the key. -/
theorem blocks_filter {l : List α} (sorted : l.Pairwise fun x y => key x ≤ key y) {a : α}
    (ha : a ∈ l) :
    ∃ x more, (blocks same l).filter (fun b => key b.1 = key a) = [(x, more)] ∧
      x :: more = l.filter (fun y => key y = key a) := by
  induction l using @blocks.induct _ same with
  | case1 => cases ha
  | case2 x rest ih =>
    have above := lt_of_mem_dropWhile same_iff sorted
    have alike : ∀ y ∈ rest.takeWhile (same x), key y = key x := by
      intro y hy
      exact ((same_iff x y).mp (List.mem_takeWhile_imp hy)).symm
    have parts : (x :: rest).filter (fun y => key y = key a) =
        (x :: rest.takeWhile (same x)).filter (fun y => key y = key a) ++
          (rest.dropWhile (same x)).filter (fun y => key y = key a) := by
      rw [← List.filter_append, List.cons_append, List.takeWhile_append_dropWhile]
    rw [blocks, parts]
    by_cases here : key a = key x
    · refine ⟨x, rest.takeWhile (same x), ?_, ?_⟩
      · rw [List.filter_cons, if_pos (decide_eq_true here.symm)]
        congr 1
        apply List.filter_eq_nil_iff.mpr
        intro b hb
        rw [decide_eq_true_eq, here]
        exact (above b.1 (mem_of_mem_blocks hb)).ne'
      · have none : (rest.dropWhile (same x)).filter (fun y => decide (key y = key a)) = [] := by
          apply List.filter_eq_nil_iff.mpr
          intro y hy
          rw [decide_eq_true_eq, here]
          exact (above y hy).ne'
        rw [none, List.append_nil]
        symm
        apply List.filter_eq_self.mpr
        intro y hy
        rw [decide_eq_true_eq, here]
        rcases List.mem_cons.mp hy with rfl | hy
        · rfl
        · exact alike y hy
    · have later : a ∈ rest.dropWhile (same x) := by
        rcases List.mem_cons.mp ha with rfl | ha
        · exact absurd rfl here
        · rw [← List.takeWhile_append_dropWhile (p := same x) (l := rest)] at ha
          rcases List.mem_append.mp ha with run | later
          · exact absurd (alike a run) here
          · exact later
      obtain ⟨_, rest_sorted⟩ := List.pairwise_cons.mp sorted
      obtain ⟨y, more, found, all⟩ := ih (rest_sorted.sublist (List.dropWhile_sublist _)) later
      refine ⟨y, more, ?_, ?_⟩
      · rw [List.filter_cons, if_neg fun h => here (of_decide_eq_true h).symm]
        exact found
      · have none : (x :: rest.takeWhile (same x)).filter (fun y => decide (key y = key a)) = [] := by
          apply List.filter_eq_nil_iff.mpr
          intro y hy
          rw [decide_eq_true_eq]
          rcases List.mem_cons.mp hy with rfl | hy
          · exact fun h => here h.symm
          · rw [alike y hy]
            exact fun h => here h.symm
        rw [none, List.nil_append]
        exact all

end Blocks
