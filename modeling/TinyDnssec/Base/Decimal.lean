import TinyDnssec.Base.Bytes

/-!
# Decimal numbers in text

Printing a number in decimal and reading one back from the front of a text. The reader takes the
longest run of digits; the round trip is that it reads exactly what was printed, whatever
follows, as long as that is not another digit.
-/

namespace Octets

def isDigit (b : UInt8) : Bool := decide (48 ≤ b) && decide (b ≤ 57)

def digitValue (b : UInt8) : Nat := b.toNat - 48

/-- The decimal digits of a number, most significant first; `0` prints as one digit. -/
def decimal (n : Nat) : Bytes := (Nat.toDigits 10 n).map fun c => UInt8.ofNat c.toNat

/-- The longest run of digits at the front of a text. -/
def digitRun (s : Bytes) : Bytes := s.takeWhile isDigit

/-- The number a run of digits stands for. -/
def digitsValue (s : Bytes) : Nat := s.foldl (fun n b => n * 10 + digitValue b) 0

/-- The octet that prints one decimal digit. -/
def digitOctet (d : Nat) : UInt8 := UInt8.ofNat (48 + d)

theorem digitOctet_isDigit {d : Nat} (h : d < 10) : isDigit (digitOctet d) = true := by
  revert d; decide

theorem digitValue_digitOctet {d : Nat} (h : d < 10) : digitValue (digitOctet d) = d := by
  revert d; decide

theorem digitChar_octet {d : Nat} (h : d < 10) :
    UInt8.ofNat (Nat.digitChar d).toNat = digitOctet d := by
  revert d; decide

/-- The last digit comes off the end. -/
theorem decimal_eq (n : Nat) :
    decimal n = (if n < 10 then [] else decimal (n / 10)) ++ [digitOctet (n % 10)] := by
  unfold decimal
  rw [Nat.toDigits_eq_if (by decide)]
  split
  · rename_i h
    simp only [List.map_cons, List.map_nil, List.nil_append, Nat.mod_eq_of_lt h, digitChar_octet h]
  · have hlt : n % 10 < 10 := Nat.mod_lt _ (by decide)
    simp only [List.map_append, List.map_cons, List.map_nil, digitChar_octet hlt]

theorem decimal_one {i : Nat} (h : i < 10) : decimal i = [digitOctet i] := by
  rw [decimal_eq, if_pos h, Nat.mod_eq_of_lt h, List.nil_append]

theorem decimal_snoc {n i : Nat} (some : n ≠ 0) (h : i < 10) :
    decimal (n * 10 + i) = decimal n ++ [digitOctet i] := by
  have front : (n * 10 + i) / 10 = n := by omega
  have last : (n * 10 + i) % 10 = i := by omega
  rw [decimal_eq, if_neg (by omega), front, last]

theorem exists_digit {b : UInt8} (h : isDigit b = true) : ∃ i, i < 10 ∧ b = digitOctet i := by
  unfold isDigit at h
  rw [Bool.and_eq_true, decide_eq_true_iff, decide_eq_true_iff, UInt8.le_iff_toNat_le,
    UInt8.le_iff_toNat_le] at h
  change 48 ≤ b.toNat ∧ b.toNat ≤ 57 at h
  refine ⟨b.toNat - 48, by omega, ?_⟩
  unfold digitOctet
  rw [Nat.add_sub_cancel' h.1, UInt8.ofNat_toNat]

/-- The decimal numbers of one, two and three digits. -/
theorem decimal_forms {n : Nat} (h : n < 1000) :
    (∃ i, i < 10 ∧ n = i) ∨ (∃ i j, i < 10 ∧ i ≠ 0 ∧ j < 10 ∧ n = i * 10 + j) ∨
      ∃ i j k, i < 10 ∧ i ≠ 0 ∧ j < 10 ∧ k < 10 ∧ n = (i * 10 + j) * 10 + k := by
  by_cases one : n < 10
  · exact .inl ⟨n, one, rfl⟩
  by_cases two : n < 100
  · exact .inr (.inl ⟨n / 10, n % 10, by omega, by omega, by omega, by omega⟩)
  · exact .inr (.inr ⟨n / 100, n / 10 % 10, n % 10, by omega, by omega, by omega, by omega, by omega⟩)

theorem decimal_length_le {n : Nat} (h : n < 1000) : (decimal n).length ≤ 3 := by
  obtain ⟨i, hi, rfl⟩ | ⟨i, j, hi, some, hj, rfl⟩ | ⟨i, j, k, hi, some, hj, hk, rfl⟩ :=
    decimal_forms h
  · simp [decimal_one hi]
  · simp [decimal_snoc some hj, decimal_one hi]
  · simp [decimal_snoc (show i * 10 + j ≠ 0 by omega) hk, decimal_snoc some hj, decimal_one hi]

theorem decimal_digits (n : Nat) : ∀ b ∈ decimal n, isDigit b = true := by
  induction n using Nat.strongRecOn with
  | ind n ih =>
    intro b hb
    rw [decimal_eq] at hb
    rcases List.mem_append.mp hb with hb | hb
    · split at hb
      · cases hb
      · exact ih (n / 10) (by omega) b hb
    · rw [List.mem_singleton.mp hb]
      exact digitOctet_isDigit (Nat.mod_lt _ (by decide))

theorem digitsValue_decimal (n : Nat) : digitsValue (decimal n) = n := by
  induction n using Nat.strongRecOn with
  | ind n ih =>
    have hlt : n % 10 < 10 := Nat.mod_lt _ (by decide)
    rw [decimal_eq, digitsValue, List.foldl_append, List.foldl_cons, List.foldl_nil,
      digitValue_digitOctet hlt]
    split
    · simp only [List.foldl_nil]; omega
    · have hrec := ih (n / 10) (by omega)
      rw [digitsValue] at hrec
      rw [hrec]; omega

theorem decimal_ne_nil (n : Nat) : decimal n ≠ [] := by
  rw [decimal_eq]
  exact List.append_ne_nil_of_right_ne_nil _ (List.cons_ne_nil _ _)

/-- The reader stops exactly where the printed number ends. -/
theorem digitRun_append {s rest : Bytes} (digits : ∀ b ∈ s, isDigit b = true)
    (stop : ∀ b ∈ rest.head?, isDigit b = false) : digitRun (s ++ rest) = s := by
  induction s with
  | nil =>
    cases rest with
    | nil => rfl
    | cons b rest => simp only [digitRun, List.nil_append, List.takeWhile_cons, stop b rfl,
        Bool.false_eq_true, if_false]
  | cons b s ih =>
    simp only [digitRun, List.cons_append, List.takeWhile_cons, digits b List.mem_cons_self, if_true]
    congr 1
    exact ih fun c hc => digits c (List.mem_cons_of_mem _ hc)

theorem digitRun_decimal (n : Nat) : digitRun (decimal n) = decimal n := by
  have h := @digitRun_append (decimal n) [] (decimal_digits n) (fun _ h => by cases h)
  rwa [List.append_nil] at h

end Octets
