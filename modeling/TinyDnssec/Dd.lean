import TinyDnssec.Query.Special

/-!
# Dotted decimal

`dd.c` reads the labels in front of a base as the octets of an address. It reads exactly what the
decimal numbers of octets look like, so it turns around what `dns_name4_domain` makes.
-/

namespace TinyDnssec.Dnscache

open Octets

/-! ## A label -/

theorem digitOctet_toNat {i : Nat} (h : i < 10) : (digitOctet i).toNat = 48 + i := by
  have byte : 48 + i < 256 := by omega
  exact UInt8.toNat_ofNat_of_lt' byte

/-- What the comparisons of `dd` let through. -/
theorem inside_iff {a : UInt8} : ¬ (a < 48 ∨ a > 57) ↔ ∃ i, i < 10 ∧ a = digitOctet i := by
  rw [UInt8.lt_iff_toNat_lt, gt_iff_lt, UInt8.lt_iff_toNat_lt]
  change ¬ (a.toNat < 48 ∨ 57 < a.toNat) ↔ _
  constructor
  · intro h
    apply exists_digit
    simp only [isDigit, Bool.and_eq_true, decide_eq_true_iff, UInt8.le_iff_toNat_le]
    change 48 ≤ a.toNat ∧ a.toNat ≤ 57
    omega
  · rintro ⟨i, hi, rfl⟩
    rw [digitOctet_toNat hi]
    omega

theorem digitOctet_value {i : Nat} (h : i < 10) : (digitOctet i - 48).toNat = i := by
  have low : (48 : UInt8) ≤ digitOctet i := by
    rw [UInt8.le_iff_toNat_le, digitOctet_toNat h]
    exact Nat.le_add_right 48 i
  rw [UInt8.toNat_sub_of_le _ _ low, digitOctet_toNat h]
  exact Nat.add_sub_cancel_left 48 i

theorem leading_iff {i : Nat} (h : i < 10) : digitOctet i - 48 = 0 ↔ i = 0 := by
  rw [← UInt8.toNat_inj, digitOctet_value h]
  rfl

theorem two_digits {i j : Nat} (hi : i < 10) (hj : j < 10) :
    ((digitOctet i - 48) * 10 + (digitOctet j - 48)).toNat = i * 10 + j := by
  rw [UInt8.toNat_add, UInt8.toNat_mul, digitOctet_value hi, digitOctet_value hj]
  change (i * 10 % 256 + j) % 256 = i * 10 + j
  omega

theorem three_digits {i j k : Nat} (hi : i < 10) (hj : j < 10) (hk : k < 10) :
    (((digitOctet i).toNat - 48) * 10 + ((digitOctet j).toNat - 48)) * 10 +
      ((digitOctet k).toNat - 48) = (i * 10 + j) * 10 + k := by
  rw [digitOctet_toNat hi, digitOctet_toNat hj, digitOctet_toNat hk]
  simp only [Nat.add_sub_cancel_left]

/-- The decimal numbers of octets are read. -/
theorem ddOctet_decimal (x : UInt8) : ddOctet (decimal x.toNat) = some x := by
  have small := x.toNat_lt
  have inside {i : Nat} (h : i < 10) : ¬ (digitOctet i < 48 ∨ digitOctet i > 57) :=
    inside_iff.mpr ⟨i, h, rfl⟩
  obtain ⟨i, hi, value⟩ | ⟨i, j, hi, some, hj, value⟩ | ⟨i, j, k, hi, some, hj, hk, value⟩ :=
    decimal_forms (show x.toNat < 1000 by omega)
  · rw [value, decimal_one hi]
    simp only [ddOctet, if_neg (inside hi), Option.some_inj]
    rw [← UInt8.toNat_inj, digitOctet_value hi, value]
  · rw [value, decimal_snoc some hj, decimal_one hi]
    have first : ¬ digitOctet i - 48 = 0 := fun h => some ((leading_iff hi).mp h)
    simp only [List.cons_append, List.nil_append, ddOctet, if_neg (inside hi), if_neg (inside hj),
      if_neg first, Option.some_inj]
    rw [← UInt8.toNat_inj, two_digits hi hj, value]
  · rw [value, decimal_snoc (show i * 10 + j ≠ 0 by omega) hk, decimal_snoc some hj, decimal_one hi]
    have first : ¬ digitOctet i - 48 = 0 := fun h => some ((leading_iff hi).mp h)
    simp only [List.cons_append, List.nil_append, ddOctet, if_neg (inside hi), if_neg (inside hj),
      if_neg (inside hk), if_neg first, three_digits hi hj hk]
    rw [if_neg (by omega), ← value, UInt8.ofNat_toNat]

theorem ddOctet_eq_some {l : Label} {x : UInt8} :
    ddOctet l = some x ↔ l = decimal x.toNat := by
  constructor
  · intro h
    match l with
    | [] => cases h
    | [a] =>
      simp only [ddOctet, Option.ite_none_left_eq_some] at h
      obtain ⟨ha, h⟩ := h
      obtain ⟨i, hi, rfl⟩ := inside_iff.mp ha
      cases h
      rw [digitOctet_value hi, decimal_one hi]
    | [a, b] =>
      simp only [ddOctet, Option.ite_none_left_eq_some] at h
      obtain ⟨ha, first, hb, h⟩ := h
      obtain ⟨i, hi, rfl⟩ := inside_iff.mp ha
      obtain ⟨j, hj, rfl⟩ := inside_iff.mp hb
      cases h
      rw [two_digits hi hj, decimal_snoc (fun h => first ((leading_iff hi).mpr h)) hj,
        decimal_one hi]
      rfl
    | [a, b, c] =>
      simp only [ddOctet, Option.ite_none_left_eq_some] at h
      obtain ⟨ha, first, hb, hc, small, h⟩ := h
      obtain ⟨i, hi, rfl⟩ := inside_iff.mp ha
      obtain ⟨j, hj, rfl⟩ := inside_iff.mp hb
      obtain ⟨k, hk, rfl⟩ := inside_iff.mp hc
      cases h
      have some : i ≠ 0 := fun h => first ((leading_iff hi).mpr h)
      rw [three_digits hi hj hk] at small ⊢
      have byte : (i * 10 + j) * 10 + k < 256 := by omega
      rw [UInt8.toNat_ofNat_of_lt' byte, decimal_snoc (by omega) hk, decimal_snoc some hj,
        decimal_one hi]
      rfl
    | _ :: _ :: _ :: _ :: _ => cases h
  · rintro rfl
    exact ddOctet_decimal x

/-! ## A name -/

/-- **`dd`**: as many labels are decimal numbers of octets as stand in front of the base, and there are
no more than four. -/
theorem ddGo_iff {base : Name} (hbase : Valid base) {q : Name} (hq : Valid q) {j j' : Nat}
    {ip ip' : Bytes} :
    ddGo base q j ip = some (j', ip') ↔ ∃ (xs : Bytes) (tail : Name),
      q = xs.map (fun x => decimal x.toNat) ++ tail ∧ lowerName tail = lowerName base ∧
        j' = j + xs.length ∧ ip' = ip ++ xs ∧ (j' ≤ 4 ∨ xs = []) := by
  induction q generalizing j ip with
  | nil =>
    unfold ddGo
    split
    · rename_i equal
      constructor
      · intro h
        cases h
        exact ⟨[], [], rfl, (dnsDomainEqual_iff hq hbase).mp equal, rfl, (List.append_nil _).symm,
          .inr rfl⟩
      · rintro ⟨xs, tail, parts, -, rfl, rfl, -⟩
        obtain ⟨none, -⟩ := List.append_eq_nil_iff.mp parts.symm
        rw [List.map_eq_nil_iff.mp none, List.append_nil, List.length_nil, Nat.add_zero]
    · rename_i other
      refine iff_of_false (fun h => by split at h <;> cases h) ?_
      rintro ⟨xs, tail, parts, same, -⟩
      obtain ⟨-, rfl⟩ := List.append_eq_nil_iff.mp parts.symm
      exact other ((dnsDomainEqual_iff hq hbase).mpr same)
  | cons l q ih =>
    unfold ddGo
    split
    · rename_i equal
      have whole := (dnsDomainEqual_iff hq hbase).mp equal
      constructor
      · intro h
        cases h
        exact ⟨[], l :: q, rfl, whole, rfl, (List.append_nil _).symm, .inr rfl⟩
      · rintro ⟨xs, tail, parts, same, rfl, rfl, -⟩
        -- with labels in front of it, the base would be longer than itself
        have count := congrArg List.length parts
        have long := congrArg List.length (whole.trans same.symm)
        rw [List.length_append, List.length_map] at count
        rw [lowerName_length, lowerName_length] at long
        rw [List.length_eq_zero_iff.mp (show xs.length = 0 by omega), List.append_nil,
          List.length_nil, Nat.add_zero]
    · rename_i other
      have some {xs : Bytes} {tail : Name} (same : lowerName tail = lowerName base)
          (parts : l :: q = xs.map (fun x => decimal x.toNat) ++ tail) : xs ≠ [] := by
        rintro rfl
        rw [List.map_nil, List.nil_append] at parts
        exact other ((dnsDomainEqual_iff hq hbase).mpr (parts ▸ same))
      split
      · refine iff_of_false (fun h => by cases h) ?_
        rintro ⟨xs, tail, parts, same, rfl, -, few | none⟩
        · have more := List.length_pos_iff.mpr (some same parts)
          omega
        · exact some same parts none
      · simp only []
        split
        · rename_i none
          refine iff_of_false (fun h => by cases h) ?_
          rintro ⟨xs, tail, parts, same, -⟩
          cases xs with
          | nil => exact some same parts rfl
          | cons x xs =>
            obtain ⟨label, -⟩ := List.cons.inj parts
            rw [ddOctet_eq_some.mpr label] at none
            cases none
        · rename_i x octet
          rw [ih hq.tail]
          constructor
          · rintro ⟨xs, tail, rfl, same, rfl, rfl, few⟩
            refine ⟨x :: xs, tail, ?_, same, ?_, ?_, .inl ?_⟩
            · rw [ddOctet_eq_some.mp octet]
              rfl
            · rw [List.length_cons, Nat.add_right_comm, Nat.add_assoc]
            · rw [List.append_assoc]
              rfl
            · rcases few with few | rfl
              · exact few
              · rw [List.length_nil]
                omega
          · rintro ⟨xs, tail, parts, same, rfl, rfl, few⟩
            cases xs with
            | nil => exact absurd rfl (some same parts)
            | cons y xs =>
              obtain ⟨label, rest⟩ := List.cons.inj parts
              rw [ddOctet_eq_some.mpr label] at octet
              cases octet
              refine ⟨xs, tail, rest, same, ?_, ?_, ?_⟩
              · rw [List.length_cons, Nat.add_right_comm, Nat.add_assoc]
              · rw [List.append_assoc]
                rfl
              · exact few.imp_right fun none => by cases none

/-- What `dd` answers for a name: the octets that the labels in front of the base spell. -/
theorem dd_iff {base : Name} (hbase : Valid base) {q : Name} (hq : Valid q) {j : Nat} {ip : Bytes} :
    dd q base = some (j, ip) ↔ ∃ tail : Name, q = ip.map (fun x => decimal x.toNat) ++ tail ∧
      lowerName tail = lowerName base ∧ j = ip.length ∧ j ≤ 4 := by
  unfold dd
  rw [ddGo_iff hbase hq]
  constructor
  · rintro ⟨xs, tail, parts, same, count, rfl, few⟩
    rw [Nat.zero_add] at count
    refine ⟨tail, parts, same, count, ?_⟩
    rcases few with few | none
    · exact few
    · rw [count, none]
      exact Nat.zero_le 4
  · rintro ⟨tail, parts, same, count, few⟩
    exact ⟨ip, tail, parts, same, count.trans (Nat.zero_add _).symm, rfl, .inl few⟩

/-- The base is tried first, so its own numbers are not read. -/
example : dd [ascii "3", ascii "2", ascii "10", ascii "In-Addr"] [ascii "10", ascii "in-addr"] =
    some (2, [3, 2]) := by
  decide +kernel

end TinyDnssec.Dnscache
