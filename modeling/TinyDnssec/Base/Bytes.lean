import Mathlib

/-!
# Byte strings

The byte-level vocabulary the rest of the development is written in: strings of octets, the
order that compares them octet by octet, ASCII letter case, and the big-endian fields of a wire
format. Nothing here knows of a protocol.

The order is the lexicographic one Mathlib puts on lists, over octets ordered by value. On strings
of equal length it is the sign of the first differing octet, which is how C programs compare
fixed-size keys; on arbitrary strings it is the order of a sort by octets.
-/

namespace Octets

abbrev Bytes := List UInt8

/-- The octets of a text literal. -/
def ascii (s : String) : Bytes := s.toList.map fun c => UInt8.ofNat c.toNat

instance octetOrder : LinearOrder UInt8 where
  le_refl := UInt8.le_refl
  le_trans := @UInt8.le_trans
  le_antisymm := @UInt8.le_antisymm
  le_total := UInt8.le_total
  lt_iff_le_not_ge := by intro a b; grind
  toDecidableLE := inferInstance
  toDecidableEq := inferInstance
  toDecidableLT := inferInstance

/-! ## Letter case -/

/-- An octet with `A`–`Z` folded to `a`–`z`, and every other octet as it is. -/
def lowerByte (b : UInt8) : UInt8 := if 65 ≤ b ∧ b ≤ 90 then b + 32 else b

/-- A string with its ASCII letters folded to lower case. -/
def lower (s : Bytes) : Bytes := s.map lowerByte

theorem lowerByte_idem : ∀ b : UInt8, lowerByte (lowerByte b) = lowerByte b := by
  decide +kernel

/-- Octets below the capitals are their own lower case: lengths, dots, digits. -/
theorem lowerByte_of_lt {b : UInt8} (h : b < 65) : lowerByte b = b := by
  unfold lowerByte
  rw [if_neg (fun hb => absurd h (not_lt.mpr hb.1))]

@[simp] theorem lower_nil : lower [] = [] := rfl

@[simp] theorem lower_cons (b : UInt8) (s : Bytes) : lower (b :: s) = lowerByte b :: lower s := rfl

@[simp] theorem lower_append (s t : Bytes) : lower (s ++ t) = lower s ++ lower t :=
  List.map_append

@[simp] theorem lower_length (s : Bytes) : (lower s).length = s.length := List.length_map ..

@[simp] theorem lower_idem (s : Bytes) : lower (lower s) = lower s := by
  simp only [lower, List.map_map]
  exact List.map_congr_left fun b _ => lowerByte_idem b

@[simp] theorem lower_eq_nil {s : Bytes} : lower s = [] ↔ s = [] := List.map_eq_nil_iff

/-! ## Big-endian fields -/

/-- The low 16 bits, most significant octet first. -/
def be16 (n : Nat) : Bytes := [UInt8.ofNat (n / 256), UInt8.ofNat n]

/-- The low 32 bits, most significant octet first. -/
def be32 (n : Nat) : Bytes :=
  [UInt8.ofNat (n / 16777216), UInt8.ofNat (n / 65536), UInt8.ofNat (n / 256), UInt8.ofNat n]

/-- The low 64 bits, most significant octet first. -/
def be64 (n : Nat) : Bytes := be32 (n / 4294967296) ++ be32 n

/-- The number a big-endian field of any width stands for. -/
def unbe (s : Bytes) : Nat := s.foldl (fun n b => n * 256 + b.toNat) 0

@[simp] theorem be16_length (n : Nat) : (be16 n).length = 2 := rfl

@[simp] theorem be32_length (n : Nat) : (be32 n).length = 4 := rfl

@[simp] theorem be64_length (n : Nat) : (be64 n).length = 8 := rfl

theorem unbe_lt (s : Bytes) : unbe s < 256 ^ s.length := by
  induction s using List.reverseRecOn with
  | nil => exact Nat.one_pos
  | append_singleton s b ih =>
    have hb := b.toNat_lt
    unfold unbe at ih ⊢
    rw [List.foldl_append, List.length_append]
    show List.foldl _ 0 s * 256 + b.toNat < 256 ^ (s.length + 1)
    rw [Nat.pow_succ]
    omega

theorem unbe_be16 {n : Nat} (h : n < 65536) : unbe (be16 n) = n := by
  simp only [unbe, be16, List.foldl_cons, List.foldl_nil, UInt8.toNat_ofNat']
  omega

theorem unbe_be32 {n : Nat} (h : n < 4294967296) : unbe (be32 n) = n := by
  simp only [unbe, be32, List.foldl_cons, List.foldl_nil, UInt8.toNat_ofNat']
  omega

theorem unbe_be64 {n : Nat} (h : n < 18446744073709551616) : unbe (be64 n) = n := by
  simp only [unbe, be64, be32, List.cons_append, List.nil_append, List.foldl_cons, List.foldl_nil,
    UInt8.toNat_ofNat']
  omega

theorem unbe_pair (a b : UInt8) : unbe [a, b] = a.toNat * 256 + b.toNat := by
  simp only [unbe, List.foldl_cons, List.foldl_nil]
  omega

/-- A two-octet field is the packing of the number it stands for. -/
theorem be16_unbe (a b : UInt8) : be16 (unbe [a, b]) = [a, b] := by
  have ha := a.toNat_lt
  have hb := b.toNat_lt
  rw [unbe_pair]
  simp only [be16, List.cons.injEq, and_true]
  constructor <;> (apply UInt8.toNat_inj.mp; simp only [UInt8.toNat_ofNat']; omega)

/-- A four-octet field is the packing of the number it stands for. -/
theorem be32_unbe (a b c d : UInt8) : be32 (unbe [a, b, c, d]) = [a, b, c, d] := by
  have ha := a.toNat_lt
  have hb := b.toNat_lt
  have hc := c.toNat_lt
  have hd := d.toNat_lt
  simp only [unbe, be32, List.foldl_cons, List.foldl_nil, List.cons.injEq, and_true]
  refine ⟨?_, ?_, ?_, ?_⟩ <;> (apply UInt8.toNat_inj.mp; simp only [UInt8.toNat_ofNat']; omega)

/-- A number as four octets, the lowest first. -/
def le32 (n : Nat) : Bytes := (be32 n).reverse

/-- The number some octets stand for, the lowest first. -/
def unle (s : Bytes) : Nat := unbe s.reverse

@[simp] theorem le32_length (n : Nat) : (le32 n).length = 4 := rfl

theorem unle_le32 {n : Nat} (h : n < 4294967296) : unle (le32 n) = n := by
  unfold unle le32
  rw [List.reverse_reverse, unbe_be32 h]

/-! ## Fixed-size order -/

/-- Between strings of one length, the leading octet is monotone. -/
theorem head_le_of_le {a b : UInt8} {s t : Bytes} (h : a :: s ≤ b :: t) : a ≤ b := by
  by_contra hlt
  exact absurd h (not_le.mpr (List.cons_lt_cons_iff.mpr (.inl (not_le.mp hlt))))

end Octets
