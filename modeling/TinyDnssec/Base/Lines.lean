import TinyDnssec.Base.Bytes

/-!
# Lines

`byte_chr`, and the lines of a text, each with its newline. The last line may have none. The lines
say where a text is cut apart and keep everything that was in it.
-/

namespace Octets

/-- `byte_chr`: the place of an octet in a string, or the length of the string. -/
def byteChr (c : UInt8) (s : Bytes) : Nat := (s.takeWhile (· ≠ c)).length

theorem byteChr_le (c : UInt8) (s : Bytes) : byteChr c s ≤ s.length :=
  (List.takeWhile_prefix _).length_le

theorem byteChr_front {c : UInt8} {front : Bytes} (clean : c ∉ front) (back : Bytes) :
    byteChr c (front ++ c :: back) = front.length := by
  unfold byteChr
  rw [List.takeWhile_append_of_pos, List.takeWhile_cons_of_neg, List.append_nil]
  · simp
  · intro b hb
    exact decide_eq_true fun h => clean (h ▸ hb)

theorem byteChr_clean {c : UInt8} {s : Bytes} (clean : c ∉ s) : byteChr c s = s.length := by
  have whole : s.takeWhile (· ≠ c) = s := by
    rw [List.takeWhile_eq_self_iff]
    exact fun b hb => decide_eq_true fun h => clean (h ▸ hb)
  rw [byteChr, whole]

theorem take_byteChr (c : UInt8) (s : Bytes) : s.take (byteChr c s) = s.takeWhile (· ≠ c) :=
  (List.prefix_iff_eq_take.mp (List.takeWhile_prefix _)).symm

theorem drop_front {α : Type} (front : List α) (c : α) (back : List α) :
    (front ++ c :: back).drop (front.length + 1) = back := by
  rw [← List.drop_drop, List.drop_left]
  rfl

theorem take_front {α : Type} (front : List α) (c : α) (back : List α) :
    (front ++ c :: back).take (front.length + 1) = front ++ [c] := by
  rw [List.take_add_one, List.take_left, List.getElem?_append_right (Nat.le_refl _), Nat.sub_self]
  rfl

/-! ## Lines -/

def linesOf : Bytes → List Bytes
  | [] => []
  | c :: s =>
    if c = 10 then [10] :: linesOf s
    else match linesOf s with
      | [] => [[c]]
      | l :: ls => (c :: l) :: ls

/-- A line ends at the first newline. -/
theorem linesOf_append {f : Bytes} (clean : 10 ∉ f) (s : Bytes) :
    linesOf (f ++ 10 :: s) = (f ++ [10]) :: linesOf s := by
  induction f with
  | nil => rw [List.nil_append, linesOf, if_pos rfl, List.nil_append]
  | cons c f ih =>
    have other : c ≠ 10 := fun h => clean (h ▸ List.mem_cons_self)
    rw [List.cons_append, linesOf, if_neg other, ih fun h => clean (List.mem_cons_of_mem _ h)]
    rfl

/-- The last line ends with the text. -/
theorem linesOf_clean {f : Bytes} (some : f ≠ []) (clean : 10 ∉ f) : linesOf f = [f] := by
  induction f with
  | nil => exact absurd rfl some
  | cons c f ih =>
    have other : c ≠ 10 := fun h => clean (h ▸ List.mem_cons_self)
    rw [linesOf, if_neg other]
    by_cases empty : f = []
    · rw [empty]
      rfl
    · rw [ih empty fun h => clean (List.mem_cons_of_mem _ h)]

/-- A newline at the end of the last line changes nothing else. -/
theorem linesOf_newline {s : Bytes} (more : s ≠ []) (missing : s.getLast? ≠ some 10) :
    ∃ front last, linesOf s = front ++ [last] ∧ 10 ∉ last ∧
      linesOf (s ++ [10]) = front ++ [last ++ [10]] := by
  induction hsize : s.length using Nat.strongRecOn generalizing s with
  | ind size ih =>
    by_cases newline : 10 ∈ s
    · obtain ⟨first, back, rfl, clean⟩ := List.eq_append_cons_of_mem newline
      have rest : back ≠ [] := by
        rintro rfl
        rw [List.getLast?_concat] at missing
        exact missing rfl
      obtain ⟨c, cs, rfl⟩ := List.exists_cons_of_ne_nil rest
      rw [List.getLast?_append_cons, List.getLast?_cons_cons] at missing
      have shorter : (c :: cs).length < size := by
        rw [← hsize, List.length_append]
        simp only [List.length_cons]
        omega
      obtain ⟨front, last, cuts, unended, ended⟩ := ih _ shorter rest missing rfl
      refine ⟨(first ++ [10]) :: front, last, ?_, unended, ?_⟩
      · rw [linesOf_append clean, cuts]
        rfl
      · rw [List.append_assoc, List.cons_append, linesOf_append clean, ended]
        rfl
    · refine ⟨[], s, linesOf_clean more newline, newline, ?_⟩
      rw [linesOf_append newline]
      rfl

end Octets
