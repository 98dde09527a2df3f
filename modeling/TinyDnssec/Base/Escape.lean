import TinyDnssec.Base.Bytes

/-!
# Backslash escapes and separated fields

The text encoding of octets that a line-oriented file uses: a backslash before one to three octal
digits stands for the octet with that number, a backslash before any other octet stands for that
octet, and any other octet stands for itself. `unescape` remembers of each octet whether it was
escaped, because a separator counts only where it was not.

`escape` writes every octet that a caller does not call plain with three octal digits; three is
what keeps a following digit from being read as part of the number.
-/

namespace Octets

def isOctal (b : UInt8) : Bool := decide (48 ≤ b) && decide (b ≤ 55)

/-- The octets a text stands for, each with whether it was escaped. A backslash at the very end
stands for nothing. -/
def unescape : Bytes → List (Bool × UInt8)
  | [] => []
  | 92 :: [] => []
  | 92 :: c1 :: [] => [(true, if isOctal c1 then c1 - 48 else c1)]
  | 92 :: c1 :: c2 :: [] =>
    if isOctal c1 then
      if isOctal c2 then [(true, (c1 - 48) * 8 + (c2 - 48))]
      else (true, c1 - 48) :: unescape [c2]
    else (true, c1) :: unescape [c2]
  | 92 :: c1 :: c2 :: c3 :: s =>
    if isOctal c1 then
      if isOctal c2 then
        if isOctal c3 then (true, ((c1 - 48) * 8 + (c2 - 48)) * 8 + (c3 - 48)) :: unescape s
        else (true, (c1 - 48) * 8 + (c2 - 48)) :: unescape (c3 :: s)
      else (true, c1 - 48) :: unescape (c2 :: c3 :: s)
    else (true, c1) :: unescape (c2 :: c3 :: s)
  | c :: s => (false, c) :: unescape s

/-- An octet as a backslash and three octal digits. -/
def octal (b : UInt8) : Bytes := [92, 48 + b / 64, 48 + b / 8 % 8, 48 + b % 8]

/-- A string with every octet that is not `plain` written in octal. -/
def escape (plain : UInt8 → Bool) (s : Bytes) : Bytes :=
  s.flatMap fun b => if plain b then [b] else octal b

theorem octal_digits : ∀ b : UInt8, isOctal (48 + b / 64) = true ∧
    isOctal (48 + b / 8 % 8) = true ∧ isOctal (48 + b % 8) = true ∧
    ((48 + b / 64 - 48) * 8 + (48 + b / 8 % 8 - 48)) * 8 + (48 + b % 8 - 48) = b := by
  decide +kernel

attribute [local simp] unescape in
theorem unescape_octal (b : UInt8) (s : Bytes) :
    unescape (octal b ++ s) = (true, b) :: unescape s := by
  obtain ⟨h1, h2, h3, hv⟩ := octal_digits b
  simp only [octal, List.cons_append, List.nil_append, unescape, h1, h2, h3, if_true, hv]

theorem unescape_plain {c : UInt8} (h : c ≠ 92) (s : Bytes) :
    unescape (c :: s) = (false, c) :: unescape s := by
  rw [unescape]
  all_goals (intros; exact absurd ‹c = 92› h)

theorem unescape_append {t : Bytes} (bare : 92 ∉ t) (s : Bytes) :
    unescape (t ++ s) = t.map (false, ·) ++ unescape s := by
  induction t with
  | nil => rfl
  | cons c t ih =>
    have hc : c ≠ 92 := fun h => bare (h ▸ List.mem_cons_self)
    rw [List.cons_append, unescape_plain hc, ih fun h => bare (List.mem_cons_of_mem _ h)]
    rfl

/-- **What was escaped reads back**, and nothing after it is drawn in. -/
theorem unescape_escape {plain : UInt8 → Bool} (backslash : plain 92 = false) (s rest : Bytes) :
    unescape (escape plain s ++ rest) = s.map (fun b => (!plain b, b)) ++ unescape rest := by
  induction s with
  | nil => rfl
  | cons b s ih =>
    simp only [escape, List.flatMap_cons, List.append_assoc, List.map_cons, List.cons_append] at ih ⊢
    cases hb : plain b with
    | true =>
      have hne : b ≠ 92 := fun h => by rw [h, backslash] at hb; cases hb
      simp only [if_true, List.cons_append, List.nil_append, unescape_plain hne, ih, Bool.not_true]
    | false =>
      simp only [Bool.false_eq_true, if_false, unescape_octal, ih, Bool.not_false]

/-! ## A dot behind a text -/

theorem unescape_escaped {c : UInt8} (h : isOctal c = false) (s : Bytes) :
    unescape (92 :: c :: s) = (true, c) :: unescape s := by
  match s with
  | [] => simp [unescape, h]
  | [d] => simp [unescape, h]
  | d :: e :: s => simp [unescape, h]

theorem unescape_one {c₁ c : UInt8} (h₁ : isOctal c₁ = true) (h : isOctal c = false) (s : Bytes) :
    unescape (92 :: c₁ :: c :: s) = (true, c₁ - 48) :: unescape (c :: s) := by
  match s with
  | [] => simp [unescape, h₁, h]
  | d :: s => simp [unescape, h₁, h]

theorem unescape_two {c₁ c₂ c : UInt8} (h₁ : isOctal c₁ = true) (h₂ : isOctal c₂ = true)
    (h : isOctal c = false) (s : Bytes) :
    unescape (92 :: c₁ :: c₂ :: c :: s) = (true, (c₁ - 48) * 8 + (c₂ - 48)) :: unescape (c :: s) := by
  simp [unescape, h₁, h₂, h]

/-- Whether a text ends in a backslash that would escape a dot behind it. -/
def pending (s : Bytes) : Bool := decide ((unescape (s ++ [46])).getLast? = some (true, 46))

theorem exists_unescape_dot (s : Bytes) :
    ∃ escaped, ∀ rest, unescape (s ++ 46 :: rest) = unescape s ++ (escaped, 46) :: unescape rest := by
  have dot : isOctal 46 = false := by decide
  have plain (rest : Bytes) : unescape (46 :: rest) = (false, 46) :: unescape rest :=
    unescape_plain (by decide) rest
  fun_induction unescape s with
  | case1 => exact ⟨false, plain⟩
  | case2 => exact ⟨true, unescape_escaped dot⟩
  | case3 c1 =>
    refine ⟨false, fun rest => ?_⟩
    cases h1 : isOctal c1 with
    | false => simp [unescape_escaped h1, plain]
    | true => simp [unescape_one h1 dot, plain]
  | case4 c1 c2 h1 h2 => exact ⟨false, fun rest => by simp [unescape_two h1 h2 dot, plain]⟩
  | case5 c1 c2 h1 h2 ih =>
    obtain ⟨escaped, ih⟩ := ih
    rw [Bool.not_eq_true] at h2
    refine ⟨escaped, fun rest => ?_⟩
    have step := unescape_one h1 h2 (46 :: rest)
    exact step.trans (congrArg _ (ih rest))
  | case6 c1 c2 h1 ih =>
    obtain ⟨escaped, ih⟩ := ih
    rw [Bool.not_eq_true] at h1
    refine ⟨escaped, fun rest => ?_⟩
    have step := unescape_escaped h1 (c2 :: 46 :: rest)
    exact step.trans (congrArg _ (ih rest))
  | case7 c1 c2 c3 s h1 h2 h3 ih =>
    obtain ⟨escaped, ih⟩ := ih
    refine ⟨escaped, fun rest => ?_⟩
    simp only [List.cons_append, unescape, h1, h2, h3, if_true, ih]
  | case8 c1 c2 c3 s h1 h2 h3 ih =>
    obtain ⟨escaped, ih⟩ := ih
    rw [Bool.not_eq_true] at h3
    refine ⟨escaped, fun rest => ?_⟩
    have step := unescape_two h1 h2 h3 (s ++ 46 :: rest)
    exact step.trans (congrArg _ (ih rest))
  | case9 c1 c2 c3 s h1 h2 ih =>
    obtain ⟨escaped, ih⟩ := ih
    rw [Bool.not_eq_true] at h2
    refine ⟨escaped, fun rest => ?_⟩
    have step := unescape_one h1 h2 (c3 :: s ++ 46 :: rest)
    exact step.trans (congrArg _ (ih rest))
  | case10 c1 c2 c3 s h1 ih =>
    obtain ⟨escaped, ih⟩ := ih
    rw [Bool.not_eq_true] at h1
    refine ⟨escaped, fun rest => ?_⟩
    have step := unescape_escaped h1 (c2 :: c3 :: s ++ 46 :: rest)
    exact step.trans (congrArg _ (ih rest))
  | case11 c s h1 h2 h3 h4 ih =>
    obtain ⟨escaped, ih⟩ := ih
    have other : c ≠ 92 := by
      rintro rfl
      match s with
      | [] => exact h1 rfl rfl
      | [c1] => exact h2 c1 rfl rfl
      | [c1, c2] => exact h3 c1 c2 rfl rfl
      | c1 :: c2 :: c3 :: s => exact h4 c1 c2 c3 s rfl rfl
    exact ⟨escaped, fun rest => (unescape_plain other _).trans (congrArg _ (ih rest))⟩

/-- A dot parts a text, whatever comes behind it. -/
theorem unescape_dot (s rest : Bytes) :
    unescape (s ++ 46 :: rest) = unescape s ++ (pending s, 46) :: unescape rest := by
  obtain ⟨escaped, h⟩ := exists_unescape_dot s
  have last : pending s = escaped := by
    unfold pending
    rw [h [], unescape, List.getLast?_concat]
    cases escaped <;> decide
  rw [last]
  exact h rest

/-! ## Separated fields -/

/-- Cut a text at every separator. -/
def split (sep : UInt8) : Bytes → List Bytes
  | [] => [[]]
  | c :: s =>
    if c = sep then [] :: split sep s
    else match split sep s with
      | [] => [[c]]
      | f :: fs => (c :: f) :: fs

/-- A field ends at the first separator. -/
theorem split_append {sep : UInt8} {f : Bytes} (clean : sep ∉ f) (s : Bytes) :
    split sep (f ++ sep :: s) = f :: split sep s := by
  induction f with
  | nil => simp only [List.nil_append, split, if_true]
  | cons c f ih =>
    have hc : c ≠ sep := fun h => clean (h ▸ List.mem_cons_self)
    rw [List.cons_append, split, if_neg hc, ih fun h => clean (List.mem_cons_of_mem _ h)]

/-- The last field ends with the text. -/
theorem split_clean {sep : UInt8} {f : Bytes} (clean : sep ∉ f) : split sep f = [f] := by
  induction f with
  | nil => rfl
  | cons c f ih =>
    have hc : c ≠ sep := fun h => clean (h ▸ List.mem_cons_self)
    rw [split, if_neg hc, ih fun h => clean (List.mem_cons_of_mem _ h)]

/-- Fields with a separator between them. -/
def join (sep : UInt8) : List Bytes → Bytes
  | [] => []
  | [f] => f
  | f :: g :: fs => f ++ sep :: join sep (g :: fs)

theorem join_cons {sep : UInt8} {f : Bytes} {fs : List Bytes} (more : fs ≠ []) :
    join sep (f :: fs) = f ++ sep :: join sep fs := by
  cases fs with
  | nil => exact absurd rfl more
  | cons g fs => rfl

theorem join_concat {sep : UInt8} {fs : List Bytes} (some : fs ≠ []) (f : Bytes) :
    join sep (fs ++ [f]) = join sep fs ++ sep :: f := by
  induction fs with
  | nil => exact absurd rfl some
  | cons g gs ih =>
    cases gs with
    | nil => rfl
    | cons h gs =>
      rw [List.cons_append, join_cons (by simp), ih (List.cons_ne_nil _ _),
        join_cons (List.cons_ne_nil _ _), List.append_assoc, List.cons_append]

/-- **Fields that were joined are cut apart again.** -/
theorem split_join {sep : UInt8} {fs : List Bytes} (some : fs ≠ [])
    (clean : ∀ f ∈ fs, sep ∉ f) : split sep (join sep fs) = fs := by
  induction fs with
  | nil => exact absurd rfl some
  | cons f fs ih =>
    cases fs with
    | nil => exact split_clean (clean f List.mem_cons_self)
    | cons g fs =>
      rw [join, split_append (clean f List.mem_cons_self),
        ih (List.cons_ne_nil _ _) fun x hx => clean x (List.mem_cons_of_mem _ hx)]

theorem mem_join {sep b : UInt8} {fs : List Bytes} (h : b ∈ join sep fs) :
    b = sep ∨ ∃ f ∈ fs, b ∈ f := by
  induction fs with
  | nil => cases h
  | cons f fs ih =>
    cases fs with
    | nil => exact .inr ⟨f, List.mem_cons_self, h⟩
    | cons g fs =>
      rcases List.mem_append.mp h with h | h
      · exact .inr ⟨f, List.mem_cons_self, h⟩
      · rcases List.mem_cons.mp h with h | h
        · exact .inl h
        · exact (ih h).imp_right fun ⟨x, hx, hb⟩ => ⟨x, List.mem_cons_of_mem _ hx, hb⟩

theorem split_ne_nil (sep : UInt8) (s : Bytes) : split sep s ≠ [] := by
  cases s with
  | nil => exact List.cons_ne_nil _ _
  | cons c s =>
    unfold split
    split
    · exact List.cons_ne_nil _ _
    · split <;> exact List.cons_ne_nil _ _

/-- **Fields that were cut apart join to the text again.** -/
theorem join_split (sep : UInt8) (s : Bytes) : join sep (split sep s) = s := by
  induction s with
  | nil => rfl
  | cons c s ih =>
    unfold split
    split
    · rename_i hc
      rw [join_cons (split_ne_nil sep s), ih, hc]
      rfl
    · split
      · rename_i hnil
        exact absurd hnil (split_ne_nil sep s)
      · rename_i f fs hfs
        rw [hfs] at ih
        rw [← ih]
        cases fs <;> rfl

/-- A separator more at the end is an empty field more. -/
theorem split_closed (sep : UInt8) (s : Bytes) : split sep (s ++ [sep]) = split sep s ++ [[]] := by
  induction s with
  | nil =>
    show (if sep = sep then [[], []] else _) = [[], []]
    rw [if_pos rfl]
  | cons c s ih =>
    rw [List.cons_append, split, split, ih]
    split
    · rfl
    · cases hfs : split sep s with
      | nil => exact absurd hfs (split_ne_nil sep s)
      | cons f fs => rfl

theorem split_pad (sep : UInt8) (s : Bytes) (k : Nat) :
    split sep (s ++ List.replicate k sep) = split sep s ++ List.replicate k [] := by
  induction k generalizing s with
  | zero => simp only [List.replicate_zero, List.append_nil]
  | succ k ih =>
    have h := ih (s ++ [sep])
    rw [split_closed, List.append_assoc, List.append_assoc] at h
    exact h

/-- A field is a part of the text, with no separator in it. -/
theorem mem_split {sep : UInt8} {s f : Bytes} (h : f ∈ split sep s) : sep ∉ f ∧ ∀ b ∈ f, b ∈ s := by
  induction s generalizing f with
  | nil =>
    rw [List.mem_singleton.mp h]
    exact ⟨List.not_mem_nil, fun _ hb => hb⟩
  | cons c s ih =>
    have later {g : Bytes} (hg : g ∈ split sep s) : sep ∉ g ∧ ∀ b ∈ g, b ∈ c :: s :=
      ⟨(ih hg).1, fun b hb => List.mem_cons_of_mem _ ((ih hg).2 b hb)⟩
    unfold split at h
    split at h
    · rcases List.mem_cons.mp h with rfl | h
      · exact ⟨List.not_mem_nil, fun _ hb => absurd hb List.not_mem_nil⟩
      · exact later h
    · rename_i hc
      split at h
      · rename_i hnil
        exact absurd hnil (split_ne_nil sep s)
      · rename_i g gs hgs
        rcases List.mem_cons.mp h with rfl | h
        · obtain ⟨hsep, hpart⟩ := @ih g (hgs ▸ List.mem_cons_self)
          refine ⟨fun hmem => ?_, fun b hb => ?_⟩
          · exact (List.mem_cons.mp hmem).elim (fun h => hc h.symm) hsep
          · exact (List.mem_cons.mp hb).elim (fun h => h ▸ List.mem_cons_self)
              fun h => List.mem_cons_of_mem _ (hpart b h)
        · exact later (hgs ▸ List.mem_cons_of_mem _ h)

/-- Escaping keeps a separator that is neither plain nor used by an escape out of the text. -/
theorem not_mem_escape {plain : UInt8 → Bool} {sep : UInt8} (hidden : plain sep = false)
    (other : ∀ b, sep ∉ octal b) (s : Bytes) : sep ∉ escape plain s := by
  intro h
  obtain ⟨b, _, hb⟩ := List.mem_flatMap.mp h
  split at hb
  · rename_i hp
    rw [← List.mem_singleton.mp hb, hidden] at hp
    cases hp
  · exact other b hb

/-- An escape is a backslash and digits. -/
theorem mem_octal {b c : UInt8} (h : c ∈ octal b) : c = 92 ∨ isOctal c = true := by
  obtain ⟨h1, h2, h3, _⟩ := octal_digits b
  simp only [octal, List.mem_cons, List.not_mem_nil, or_false] at h
  rcases h with rfl | rfl | rfl | rfl
  · exact .inl rfl
  · exact .inr h1
  · exact .inr h2
  · exact .inr h3

end Octets
