import TinyDnssec.Base.Decimal
import TinyDnssec.Base.Escape

/-!
# Domain names

The names every program of the package exchanges. A name is its list of labels; `wire` is the
string of length octets and labels, closed by a zero, that the C code passes around as a `char *`,
and a pointer into that string at the start of a label is a tail of the list.

`Valid` is what `dns_domain_fromdot` and `dns_packet_getname` promise of the names they build. It is
what makes `wire` injective and lets `dns_domain_equal` compare whole strings through
`case_diffb` without asking which octets are lengths.

The text side is `dns_domain_fromdot` and `dns_domain_todot_cat`: reading back what was printed
gives the name in lower case, with or without a closing dot.
-/

namespace TinyDnssec

open Octets

abbrev Label := Bytes

abbrev Name := List Label

/-- The octets of a name: each label behind its length, then the root. -/
def wire : Name → Bytes
  | [] => [0]
  | l :: n => UInt8.ofNat l.length :: (l ++ wire n)

/-- The octets in front of the closing zero. -/
def span (n : Name) : Nat := (n.map fun l => l.length + 1).sum

/-- A label of a name: not empty, and short enough for its length octet. -/
structure ValidLabel (l : Label) : Prop where
  nonempty : l ≠ []
  short : l.length ≤ 63

/-- A name that fits the 255 octets every buffer of the package allows for one. -/
structure Valid (n : Name) : Prop where
  labels : ∀ l ∈ n, ValidLabel l
  short : span n + 1 ≤ 255

instance : DecidablePred ValidLabel := fun l =>
  decidable_of_iff (l ≠ [] ∧ l.length ≤ 63) ⟨fun h => ⟨h.1, h.2⟩, fun h => ⟨h.nonempty, h.short⟩⟩

instance : DecidablePred Valid := fun n =>
  decidable_of_iff ((∀ l ∈ n, ValidLabel l) ∧ span n + 1 ≤ 255)
    ⟨fun h => ⟨h.1, h.2⟩, fun h => ⟨h.labels, h.short⟩⟩

def lowerName (n : Name) : Name := n.map lower

@[simp] theorem span_nil : span [] = 0 := rfl

@[simp] theorem span_cons (l : Label) (n : Name) : span (l :: n) = l.length + 1 + span n := rfl

@[simp] theorem span_append (n m : Name) : span (n ++ m) = span n + span m := by
  simp only [span, List.map_append, List.sum_append]

@[simp] theorem wire_length (n : Name) : (wire n).length = span n + 1 := by
  induction n with
  | nil => rfl
  | cons l n ih => simp only [wire, List.length_cons, List.length_append, ih, span_cons]; omega

theorem wire_ne_nil (n : Name) : wire n ≠ [] := by
  cases n <;> exact List.cons_ne_nil _ _

@[simp] theorem lowerName_nil : lowerName [] = [] := rfl

@[simp] theorem lowerName_cons (l : Label) (n : Name) :
    lowerName (l :: n) = lower l :: lowerName n := rfl

@[simp] theorem lowerName_append (n m : Name) :
    lowerName (n ++ m) = lowerName n ++ lowerName m := List.map_append

@[simp] theorem lowerName_idem (n : Name) : lowerName (lowerName n) = lowerName n := by
  simp only [lowerName, List.map_map]
  exact List.map_congr_left fun l _ => lower_idem l

@[simp] theorem lowerName_length (n : Name) : (lowerName n).length = n.length := List.length_map ..

@[simp] theorem span_lowerName (n : Name) : span (lowerName n) = span n := by
  induction n with
  | nil => rfl
  | cons l n ih => simp only [lowerName_cons, span_cons, lower_length, ih]

/-! ## Valid names -/

theorem ValidLabel.length_pos {l : Label} (valid : ValidLabel l) : 0 < l.length :=
  List.length_pos_iff.mpr valid.nonempty

theorem ValidLabel.lower {l : Label} (valid : ValidLabel l) : ValidLabel (lower l) :=
  ⟨fun h => valid.nonempty (lower_eq_nil.mp h), by rw [lower_length]; exact valid.short⟩

theorem Valid.lower {n : Name} (valid : Valid n) : Valid (lowerName n) := by
  refine ⟨fun l hl => ?_, by rw [span_lowerName]; exact valid.short⟩
  obtain ⟨k, hk, rfl⟩ := List.mem_map.mp hl
  exact (valid.labels k hk).lower

theorem Valid.nil : Valid [] := ⟨fun _ h => absurd h List.not_mem_nil, by decide⟩

theorem Valid.head {l : Label} {n : Name} (valid : Valid (l :: n)) : ValidLabel l :=
  valid.labels l List.mem_cons_self

/-- A pointer past a label is a pointer to a name. -/
theorem Valid.tail {l : Label} {n : Name} (valid : Valid (l :: n)) : Valid n := by
  refine ⟨fun k hk => valid.labels k (List.mem_cons_of_mem _ hk), ?_⟩
  have h := valid.short
  rw [span_cons] at h
  omega

theorem Valid.suffix {n m : Name} (valid : Valid n) (suffix : m <:+ n) : Valid m := by
  obtain ⟨p, rfl⟩ := suffix
  refine ⟨fun k hk => valid.labels k (List.mem_append_right _ hk), ?_⟩
  have h := valid.short
  rw [span_append] at h
  omega

/-- The length octet of a label says how long the label is. -/
theorem lengthOctet_toNat {l : Label} (short : l.length ≤ 63) :
    (UInt8.ofNat l.length).toNat = l.length := by
  rw [UInt8.toNat_ofNat']
  omega

/-- **A name is read off the front of any octets it is followed by.** -/
theorem wire_append_inj {n m : Name} (hn : ∀ l ∈ n, ValidLabel l) (hm : ∀ l ∈ m, ValidLabel l)
    {s t : Bytes} (same : wire n ++ s = wire m ++ t) : n = m ∧ s = t := by
  induction n generalizing m with
  | nil =>
    cases m with
    | nil => exact ⟨rfl, by simpa only [wire, List.cons_append, List.nil_append,
        List.cons.injEq, true_and] using same⟩
    | cons k m =>
      have valid := hm k List.mem_cons_self
      have hlen := lengthOctet_toNat valid.short
      simp only [wire, List.cons_append, List.cons.injEq] at same
      rw [← same.1] at hlen
      exact absurd hlen.symm (Nat.pos_iff_ne_zero.mp valid.length_pos)
  | cons l n ih =>
    have validl := hn l List.mem_cons_self
    have hlen := lengthOctet_toNat validl.short
    cases m with
    | nil =>
      simp only [wire, List.cons_append, List.cons.injEq] at same
      rw [same.1] at hlen
      exact absurd hlen.symm (Nat.pos_iff_ne_zero.mp validl.length_pos)
    | cons k m =>
      have validk := hm k List.mem_cons_self
      simp only [wire, List.cons_append, List.cons.injEq, List.append_assoc] at same
      have hkl : l.length = k.length := by
        rw [← hlen, ← lengthOctet_toNat validk.short, same.1]
      obtain ⟨rfl, hrest⟩ := List.append_inj same.2 hkl
      obtain ⟨rfl, hst⟩ := ih (fun x hx => hn x (List.mem_cons_of_mem _ hx))
        (fun x hx => hm x (List.mem_cons_of_mem _ hx)) hrest
      exact ⟨rfl, hst⟩

theorem wire_inj {n m : Name} (hn : Valid n) (hm : Valid m) : wire n = wire m ↔ n = m :=
  ⟨fun h => (wire_append_inj hn.labels hm.labels (congrArg (· ++ []) h)).1, congrArg wire⟩

/-- Folding the case of the whole string leaves the length octets alone, since they are below
`A`. -/
theorem lower_wire {n : Name} (valid : ∀ l ∈ n, ValidLabel l) :
    lower (wire n) = wire (lowerName n) := by
  induction n with
  | nil => rfl
  | cons l n ih =>
    have short := (valid l List.mem_cons_self).short
    have hlt : UInt8.ofNat l.length < 65 := by
      rw [UInt8.lt_iff_toNat_lt, lengthOctet_toNat short]
      exact Nat.lt_succ_of_le (Nat.le_succ_of_le short)
    simp only [wire, lower_cons, lower_append, lowerName_cons, lower_length, lowerByte_of_lt hlt,
      ih fun k hk => valid k (List.mem_cons_of_mem _ hk)]

/-! ## `dns_domain.c` -/

def dnsDomainLength (dn : Name) : Nat := (wire dn).length

def dnsDomainEqual (dn1 dn2 : Name) : Bool :=
  decide (dnsDomainLength dn1 = dnsDomainLength dn2) && decide (lower (wire dn1) = lower (wire dn2))

def dnsDomainSuffix : Name → Name → Bool
  | [], little => dnsDomainEqual [] little
  | l :: big, little => dnsDomainEqual (l :: big) little || dnsDomainSuffix big little

/-- **`dns_domain_equal` is equality up to letter case.** -/
theorem dnsDomainEqual_iff {a b : Name} (ha : Valid a) (hb : Valid b) :
    dnsDomainEqual a b = true ↔ lowerName a = lowerName b := by
  have hlen (h : lowerName a = lowerName b) : dnsDomainLength a = dnsDomainLength b := by
    simp only [dnsDomainLength, wire_length]
    rw [← span_lowerName a, h, span_lowerName]
  rw [dnsDomainEqual, Bool.and_eq_true, decide_eq_true_eq, decide_eq_true_eq,
    lower_wire ha.labels, lower_wire hb.labels, wire_inj ha.lower hb.lower]
  exact ⟨And.right, fun h => ⟨hlen h, h⟩⟩

theorem dnsDomainEqual_self (a : Name) : dnsDomainEqual a a = true := by
  simp only [dnsDomainEqual, decide_true, Bool.and_true]

theorem dnsDomainEqual_comm (a b : Name) : dnsDomainEqual a b = dnsDomainEqual b a := by
  unfold dnsDomainEqual
  rw [decide_eq_decide.mpr eq_comm, decide_eq_decide.mpr (eq_comm (a := lower (wire a)))]

/-- The tail that `dns_domain_suffix` finds. -/
theorem dnsDomainSuffix_tail {big little : Name} (h : dnsDomainSuffix big little = true) :
    ∃ tail, tail <:+ big ∧ dnsDomainEqual tail little = true := by
  induction big with
  | nil => exact ⟨[], List.suffix_refl _, h⟩
  | cons l big ih =>
    rw [dnsDomainSuffix, Bool.or_eq_true] at h
    rcases h with equal | below
    · exact ⟨l :: big, List.suffix_refl _, equal⟩
    · obtain ⟨tail, suffix, equal⟩ := ih below
      exact ⟨tail, suffix.trans (List.suffix_cons l big), equal⟩

/-- **`dns_domain_suffix` finds a tail that is equal up to letter case.** -/
theorem dnsDomainSuffix_iff {big little : Name} (hb : Valid big) (hl : Valid little) :
    dnsDomainSuffix big little = true ↔ lowerName little <:+ lowerName big := by
  induction big with
  | nil =>
    rw [dnsDomainSuffix, dnsDomainEqual_iff hb hl, lowerName_nil, List.suffix_nil]
    exact eq_comm
  | cons l big ih =>
    rw [dnsDomainSuffix, Bool.or_eq_true, dnsDomainEqual_iff hb hl, ih hb.tail, lowerName_cons,
      List.suffix_cons_iff]
    exact or_congr_left eq_comm

/-! ## `dns_dfd.c` -/

/-- Close the label under construction, if there is one. -/
def flushLabel (label : Label) (name : Name) : Option Name :=
  if label = [] then some name
  else if span name + label.length + 1 > 255 then none
  else some (name ++ [label])

/-- The loop of `dns_domain_fromdot`, over octets already unescaped: a dot separates labels only
where it was not escaped. -/
def fromdotGo : List (Bool × UInt8) → Label → Name → Option Name
  | [], label, name => do
    let name ← flushLabel label name
    if span name + 1 > 255 then none else some name
  | (escaped, ch) :: buf, label, name =>
    if ch = 46 ∧ escaped = false then do
      let name ← flushLabel label name
      fromdotGo buf [] name
    else if label.length ≥ 63 then none
    else fromdotGo buf (label ++ [ch]) name

def dnsDomainFromdot (buf : Bytes) : Option Name := fromdotGo (unescape buf) [] []

/-- A name with a label in front of its text has that label in front. -/
theorem fromdotGo_front {tokens : List (Bool × UInt8)} {label first : Label} {name out : Name}
    (h : fromdotGo tokens label (first :: name) = some out) :
    ∃ rest, fromdotGo tokens label name = some rest ∧ out = first :: rest := by
  have hflush {label : Label} {name out : Name} (h : flushLabel label (first :: name) = some out) :
      ∃ rest, flushLabel label name = some rest ∧ out = first :: rest := by
    unfold flushLabel at h ⊢
    rw [span_cons] at h
    split at h
    · rename_i hnil
      cases h
      exact ⟨name, if_pos hnil, rfl⟩
    · rename_i hsome
      split at h
      · cases h
      · cases h
        exact ⟨name ++ [label], by rw [if_neg hsome, if_neg (by omega)], rfl⟩
  induction tokens generalizing label name with
  | nil =>
    unfold fromdotGo at h ⊢
    obtain ⟨flushed, hflushed, h⟩ := Option.bind_eq_some_iff.mp h
    obtain ⟨rest, hrest, rfl⟩ := hflush hflushed
    rw [span_cons] at h
    split at h
    · cases h
    · cases h
      refine ⟨rest, Option.bind_eq_some_iff.mpr ⟨rest, hrest, if_neg (by omega)⟩, rfl⟩
  | cons token tokens ih =>
    obtain ⟨escaped, ch⟩ := token
    unfold fromdotGo at h ⊢
    split at h
    · rename_i hdot
      obtain ⟨flushed, hflushed, h⟩ := Option.bind_eq_some_iff.mp h
      obtain ⟨rest, hrest, rfl⟩ := hflush hflushed
      obtain ⟨out', hout, rfl⟩ := ih h
      rw [if_pos hdot]
      exact ⟨out', Option.bind_eq_some_iff.mpr ⟨rest, hrest, hout⟩, rfl⟩
    · rename_i hdot
      split at h
      · cases h
      · rename_i hshort
        rw [if_neg hdot, if_neg hshort]
        exact ih h

theorem flushLabel_labels {label : Label} {name name' : Name}
    (short : label.length ≤ 63) (labels : ∀ l ∈ name, ValidLabel l)
    (h : flushLabel label name = some name') : ∀ l ∈ name', ValidLabel l := by
  unfold flushLabel at h
  split at h
  · cases h; exact labels
  · rename_i hne
    split at h
    · cases h
    · cases h
      intro l hl
      rcases List.mem_append.mp hl with hl | hl
      · exact labels l hl
      · rw [List.mem_singleton.mp hl]; exact ⟨hne, short⟩

theorem fromdotGo_valid {buf : List (Bool × UInt8)} {label : Label} {name out : Name}
    (short : label.length ≤ 63) (labels : ∀ l ∈ name, ValidLabel l)
    (h : fromdotGo buf label name = some out) : Valid out := by
  induction buf generalizing label name with
  | nil =>
    rw [fromdotGo] at h
    obtain ⟨flushed, hflush, h⟩ := Option.bind_eq_some_iff.mp h
    split at h
    · cases h
    · rename_i hfits
      cases h
      exact ⟨flushLabel_labels short labels hflush, by omega⟩
  | cons c buf ih =>
    rw [fromdotGo] at h
    split at h
    · obtain ⟨flushed, hflush, h⟩ := Option.bind_eq_some_iff.mp h
      exact ih (Nat.zero_le _) (flushLabel_labels short labels hflush) h
    · split at h
      · cases h
      · rename_i hroom
        refine ih ?_ labels h
        rw [List.length_append, List.length_singleton]
        omega

/-- **Whatever text it is given, `dns_domain_fromdot` builds only valid names.** -/
theorem dnsDomainFromdot_valid {buf : Bytes} {name : Name}
    (h : dnsDomainFromdot buf = some name) : Valid name :=
  fromdotGo_valid (Nat.zero_le _) (fun _ h => absurd h List.not_mem_nil) h

/-! ## `dns_dtda.c` -/

/-- The octets `dns_domain_todot_cat` prints as they are: letters, digits, `-` and `_`. -/
def dotPlain (b : UInt8) : Bool :=
  (decide (97 ≤ b) && decide (b ≤ 122)) || isDigit b || decide (b = 45) || decide (b = 95)

def todotLabel (l : Label) : Bytes := escape dotPlain (lower l)

/-- The dotted text of a name, in lower case, with no closing dot except for the root. -/
def dnsDomainTodot : Name → Bytes
  | [] => [46]
  | [l] => todotLabel l
  | l :: k :: n => todotLabel l ++ 46 :: dnsDomainTodot (k :: n)

/-- The tokens of one printed label go into the label under construction. -/
theorem fromdotGo_todotLabel (l : Label) (rest : Bytes) {label : Label} {name : Name}
    (short : label.length + l.length ≤ 63) :
    fromdotGo (unescape (todotLabel l ++ rest)) label name =
      fromdotGo (unescape rest) (label ++ lower l) name := by
  rw [← lower_length l] at short
  rw [todotLabel, unescape_escape rfl]
  generalize lower l = s at *
  induction s generalizing label with
  | nil => simp only [List.map_nil, List.nil_append, List.append_nil]
  | cons b s ih =>
    rw [List.length_cons] at short
    have hnodot : ¬ (b = 46 ∧ (!dotPlain b) = false) := by
      rintro ⟨rfl, h⟩
      cases h
    rw [List.map_cons, List.cons_append, fromdotGo, if_neg hnodot, if_neg (by omega),
      ih (by rw [List.length_append, List.length_singleton]; omega), List.append_assoc,
      List.singleton_append]

theorem flushLabel_valid {label : Label} {name : Name} (valid : ValidLabel label)
    (room : span name + label.length + 1 ≤ 255) :
    flushLabel label name = some (name ++ [label]) := by
  rw [flushLabel, if_neg valid.nonempty, if_neg (by omega)]

/-- What may stand behind a printed name without changing how it reads: nothing, or dots. -/
theorem fromdotGo_dots (k : Nat) (name : Name) (short : span name + 1 ≤ 255) :
    fromdotGo (unescape (List.replicate k 46)) [] name = some name := by
  induction k with
  | zero =>
    simp only [List.replicate_zero, unescape, fromdotGo, flushLabel, if_true, Option.bind_eq_bind,
      Option.bind_some]
    rw [if_neg (by omega)]
  | succ k ih =>
    rw [List.replicate_succ, unescape_plain (by decide), fromdotGo, if_pos ⟨rfl, rfl⟩]
    simpa only [flushLabel, if_true, Option.bind_eq_bind, Option.bind_some] using ih

theorem fromdotGo_todot {n : Name} (valid : ∀ l ∈ n, ValidLabel l) (k : Nat) {name : Name}
    (short : span name + span n + 1 ≤ 255) :
    fromdotGo (unescape (dnsDomainTodot n ++ List.replicate k 46)) [] name =
      some (name ++ lowerName n) := by
  induction n generalizing name with
  | nil =>
    rw [lowerName_nil, List.append_nil]
    exact fromdotGo_dots (k + 1) name (by simpa using short)
  | cons l n ih =>
    have hl := valid l List.mem_cons_self
    have hflush : flushLabel ([] ++ lower l) name = some (name ++ [lower l]) := by
      refine flushLabel_valid hl.lower ?_
      rw [List.nil_append, lower_length]
      rw [span_cons] at short
      omega
    have hroom : span (name ++ [lower l]) + span n + 1 ≤ 255 := by
      simp only [span_append, span_cons, span_nil, lower_length] at short ⊢
      omega
    have hlen : ([] : Label).length + l.length ≤ 63 := by
      simpa only [List.length_nil, Nat.zero_add] using hl.short
    cases n with
    | nil =>
      rw [dnsDomainTodot, fromdotGo_todotLabel l _ hlen]
      cases k with
      | zero =>
        simp only [List.replicate_zero, unescape, fromdotGo, hflush, Option.bind_eq_bind,
          Option.bind_some, lowerName_cons, lowerName_nil]
        rw [if_neg (by simpa using hroom)]
      | succ k =>
        rw [List.replicate_succ, unescape_plain (by decide), fromdotGo, if_pos ⟨rfl, rfl⟩, hflush]
        exact fromdotGo_dots k _ (by simpa using hroom)
    | cons m n =>
      rw [dnsDomainTodot, List.append_assoc, fromdotGo_todotLabel l _ hlen, List.cons_append,
        unescape_plain (by decide), fromdotGo, if_pos ⟨rfl, rfl⟩, hflush]
      have hrest := ih (fun x hx => valid x (List.mem_cons_of_mem _ hx)) hroom
      rw [List.append_assoc] at hrest
      exact hrest

/-- **Reading back a printed name gives it in lower case**, with any number of closing dots. -/
theorem dnsDomainFromdot_todot {n : Name} (valid : Valid n) (k : Nat) :
    dnsDomainFromdot (dnsDomainTodot n ++ List.replicate k 46) = some (lowerName n) := by
  have h := @fromdotGo_todot n valid.labels k [] (by simpa using valid.short)
  rwa [List.nil_append] at h

/-- **Names and their texts**: a printed name reads back in lower case, and whatever text is read,
what comes out is a name. -/
theorem domain_text_round_trip :
    (∀ d, Valid d → dnsDomainFromdot (dnsDomainTodot d) = some (lowerName d)) ∧
      ∀ buf name, dnsDomainFromdot buf = some name →
        (∀ l ∈ name, l ≠ [] ∧ l.length ≤ 63) ∧ (wire name).length ≤ 255 := by
  refine ⟨fun d valid => ?_, fun buf name read => ?_⟩
  · have h := dnsDomainFromdot_todot valid 0
    rwa [List.replicate_zero, List.append_nil] at h
  · have valid := dnsDomainFromdot_valid read
    refine ⟨fun l hl => ⟨(valid.labels l hl).nonempty, (valid.labels l hl).short⟩, ?_⟩
    rw [wire_length]
    exact valid.short

/-- A dot, a backslash, a capital and an octet above 127, in front of a digit. -/
theorem domain_text_round_trip_unusual :
    dnsDomainFromdot (dnsDomainTodot [[46, 92, 65, 200, 55], [99]]) =
        some [[46, 92, 97, 200, 55], [99]] ∧
      (∀ l ∈ ([[46, 92, 97, 200, 55], [99]] : Name), l ≠ [] ∧ l.length ≤ 63) ∧
        (wire [[46, 92, 97, 200, 55], [99]]).length ≤ 255 := by
  have back := domain_text_round_trip.1 [[46, 92, 65, 200, 55], [99]] (by decide)
  have lowered : lowerName [[46, 92, 65, 200, 55], [99]] = [[46, 92, 97, 200, 55], [99]] := by decide
  rw [lowered] at back
  exact ⟨back, domain_text_round_trip.2 _ _ back⟩

end TinyDnssec
