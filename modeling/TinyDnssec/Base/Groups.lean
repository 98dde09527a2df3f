import Mathlib.Data.List.Basic
import Mathlib.Data.Nat.Bitwise

/-!
# Numbers as bits, in groups

The bits of a number are written with the highest one first. A row of bits is divided into groups of a
fixed size, and the last group is filled with zeros. A row that is written in groups can be read again
from them, if its length is known.
-/

namespace Groups

/-! ## Bits -/

/-- The lowest `w` bits of a number, the highest of them first. -/
def bits : Nat → Nat → List Bool
  | 0, _ => []
  | w + 1, n => n.testBit w :: bits w n

/-- The number that a row of bits stands for. -/
def value : List Bool → Nat
  | [] => 0
  | b :: l => b.toNat * 2 ^ l.length + value l

theorem bits_succ (w n : Nat) : bits (w + 1) n = n.testBit w :: bits w n := rfl

@[simp] theorem bits_length (w n : Nat) : (bits w n).length = w := by
  induction w with
  | zero => rfl
  | succ w ih =>
    rw [bits_succ, List.length_cons, ih]

/-- The bits are those up to the width, whatever stands above them. -/
theorem bits_congr {w m n : Nat} (same : ∀ i < w, m.testBit i = n.testBit i) :
    bits w m = bits w n := by
  induction w with
  | zero => rfl
  | succ w ih =>
    rw [bits_succ, bits_succ, same w (Nat.lt_succ_self w), ih fun i hi => same i (Nat.lt_succ_of_lt hi)]

theorem bits_mod {w k : Nat} (n : Nat) (h : w ≤ k) : bits w (n % 2 ^ k) = bits w n := by
  apply bits_congr
  intro i hi
  rw [Nat.testBit_mod_two_pow, decide_eq_true (by omega), Bool.true_and]

/-- The high bits come off first. -/
theorem bits_add (v w n : Nat) : bits (v + w) n = bits v (n >>> w) ++ bits w n := by
  induction v with
  | zero => rw [Nat.zero_add]; rfl
  | succ v ih =>
    rw [Nat.succ_add, bits_succ, bits_succ, ih, Nat.testBit_shiftRight, Nat.add_comm w v]
    rfl

/-- A number that is moved up, with another one put below it. -/
theorem bits_push (v w n : Nat) {m : Nat} (h : m < 2 ^ w) :
    bits (v + w) (n <<< w ||| m) = bits v n ++ bits w m := by
  rw [bits_add]
  congr 1
  · apply bits_congr
    intro i _
    simp [Nat.testBit_shiftRight, Nat.testBit_or, Nat.testBit_shiftLeft,
      Nat.testBit_lt_two_pow (h.trans_le (Nat.pow_le_pow_right (by decide) (Nat.le_add_right w i)))]
  · apply bits_congr
    intro i hi
    simp [Nat.testBit_or, Nat.testBit_shiftLeft, hi]

theorem bits_zero (w : Nat) : bits w 0 = List.replicate w false := by
  induction w with
  | zero => rfl
  | succ w ih =>
    rw [bits_succ, ih, Nat.zero_testBit]
    rfl

theorem value_bits (w n : Nat) : value (bits w n) = n % 2 ^ w := by
  induction w with
  | zero => rw [Nat.pow_zero, Nat.mod_one]; rfl
  | succ w ih =>
    rw [bits_succ, value, ih, bits_length, Nat.mod_pow_succ, Nat.testBit_eq_decide_div_mod_eq, Nat.add_comm,
      Nat.mul_comm]
    rcases Nat.mod_two_eq_zero_or_one (n / 2 ^ w) with h | h <;> rw [h] <;> rfl

theorem value_lt (l : List Bool) : value l < 2 ^ l.length := by
  induction l with
  | nil => exact Nat.one_pos
  | cons b l ih =>
    unfold value
    rw [List.length_cons, Nat.pow_succ]
    cases b
    · simp only [Bool.toNat_false, Nat.zero_mul]
      omega
    · simp only [Bool.toNat_true, Nat.one_mul]
      omega

/-- Rows of one length that stand for one number are one row. -/
theorem value_inj {l m : List Bool} (size : l.length = m.length) (h : value l = value m) : l = m := by
  induction l generalizing m with
  | nil => exact (List.length_eq_zero_iff.mp size.symm).symm
  | cons b l ih =>
    cases m with
    | nil => cases size
    | cons c m =>
      have size : l.length = m.length := Nat.succ.inj size
      unfold value at h
      have low := value_lt l
      have low' := value_lt m
      rw [size] at h low
      have top : b = c := by
        cases b <;> cases c <;> simp only [Bool.toNat_false, Bool.toNat_true] at h ⊢ <;> omega
      rw [top] at h
      rw [top, ih size (Nat.add_left_cancel h)]

/-! ## Groups -/

/-- A row in groups of `k`, the last one filled with zeros. -/
def groups (k : Nat) (l : List Bool) : List (List Bool) :=
  if _ : l = [] ∨ k = 0 then []
  else (l.take k ++ List.replicate (k - l.length) false) :: groups k (l.drop k)
termination_by l.length
decreasing_by
  rename_i some
  have positive := List.length_pos_iff.mpr fun none => some (.inl none)
  rw [List.length_drop]
  omega

variable {k : Nat}

@[simp] theorem groups_nil (k : Nat) : groups k [] = [] := by
  rw [groups, dif_pos (.inl rfl)]

/-- A whole group comes off. -/
theorem groups_append {l : List Bool} (whole : l.length = k) (some : 0 < k) (m : List Bool) :
    groups k (l ++ m) = l :: groups k m := by
  have nonempty : l ++ m ≠ [] := by
    intro none
    rw [(List.append_eq_nil_iff.mp none).1] at whole
    exact some.ne whole
  have filled : k - (l ++ m).length = 0 := by
    rw [List.length_append]
    omega
  rw [groups, dif_neg (by rintro (none | zero); exacts [nonempty none, some.ne' zero]), filled,
    List.replicate_zero, List.append_nil, ← whole, List.take_left, List.drop_left]

/-- What is left over makes one group. -/
theorem groups_rest {l : List Bool} (some : l ≠ []) (short : l.length ≤ k) :
    groups k l = [l ++ List.replicate (k - l.length) false] := by
  have pos := List.length_pos_iff.mpr some
  rw [groups, dif_neg (by rintro (none | zero); exacts [some none, by omega]),
    List.take_of_length_le short, List.drop_eq_nil_of_le short, groups_nil]

theorem groups_lengths (l : List Bool) : ∀ g ∈ groups k l, g.length = k := by
  induction l using @groups.induct k with
  | case1 l none =>
    rw [groups, dif_pos none]
    intro g hg
    cases hg
  | case2 l some ih =>
    rw [groups, dif_neg some]
    intro g hg
    rcases List.mem_cons.mp hg with rfl | hg
    · rw [List.length_append, List.length_take, List.length_replicate]
      omega
    · exact ih g hg

theorem groups_flatten (positive : 0 < k) (l : List Bool) :
    (groups k l).flatten.take l.length = l := by
  induction l using @groups.induct k with
  | case1 l none =>
    rw [none.resolve_right positive.ne', groups_nil]
    rfl
  | case2 l some ih =>
    rw [groups, dif_neg some, List.flatten_cons]
    by_cases short : l.length ≤ k
    · rw [List.take_of_length_le short, List.append_assoc, List.take_left]
    · have exact : k - l.length = 0 := by omega
      have split : l.length = (l.take k).length + (l.drop k).length := by
        rw [← List.length_append, List.take_append_drop]
      rw [exact, List.replicate_zero, List.append_nil, split, List.take_length_add_append, ih,
        List.take_append_drop]

/-- **A row can be read again from its groups**, if its length is known. -/
theorem groups_inj (positive : 0 < k) {l m : List Bool} (size : l.length = m.length)
    (h : groups k l = groups k m) : l = m := by
  rw [← groups_flatten positive l, ← groups_flatten positive m, h, size]

end Groups
