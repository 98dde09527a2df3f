import TinyDnssec.Base.Prefixes
import TinyDnssec.Server

/-!
# Locations of clients

The `%` lines of a data file put clients into locations, by the front of their addresses; longer
prefixes override shorter ones. The compiler stores a location under its prefix, and
`find_client_loc` tries the prefixes of an address, the longest first.

It tries all of them for an IPv4 address. For an IPv6 address it tries those of one to sixteen
digits, so that a location for all clients is not found, nor one for half an address and more; and
it tries them in lower case, while the compiler leaves the digits as they are written.

What a location does to a lookup is not said here; `Lookup.Find` has that.
-/

namespace TinyDnssec

open Octets Loop Data

/-! ## What the lines say -/

/-- A `%` line: its prefix with the address family in front, and its location. -/
structure LocationLine where
  ipPrefix : Bytes
  loc : Bytes
deriving DecidableEq

def locationLine (line : Bytes) : Option LocationLine :=
  match trimLine line with
  | 37 :: rest => some ⟨ipprefixCat (cString (fields rest 1)), locparse (fields rest 0)⟩
  | _ => none

/-- The `%` lines of a data file. -/
def locationLines (text : Bytes) : List LocationLine := (split 10 text).filterMap locationLine

/-- The address starts with the prefix: the octets of an IPv4 address, mapped or not, or the
hexadecimal digits of an IPv6 one, in either case. -/
def LocationLine.Matches (ip : Bytes) (l : LocationLine) : Prop :=
  if ip.take 12 = v4mappedPrefix then ∃ p, l.ipPrefix = 102 :: p ∧ p <+: ip.drop 12
  else ∃ p, l.ipPrefix = 115 :: p ∧ lower p <+: ip6FmtFlat ip

/-- One of the longest lines of a kind. -/
def Longest (kind : LocationLine → Prop) (lines : List LocationLine) (l : LocationLine) : Prop :=
  l ∈ lines ∧ kind l ∧ ∀ l' ∈ lines, kind l' → l'.ipPrefix.length ≤ l.ipPrefix.length

/-- The address is in the location of the longest prefix that matches, and in none if none does. -/
def InLocation (lines : List LocationLine) (ip loc : Bytes) : Prop :=
  (∃ l, Longest (·.Matches ip) lines l ∧ l.loc = loc) ∨
    (∀ l ∈ lines, ¬ l.Matches ip) ∧ loc = [0, 0]

/-! ## What is looked up -/

/-- The line is one that the search tries: for an IPv6 address, one to sixteen digits as
`ip6_fmt_flat` writes them. -/
def LocationLine.Tried (ip : Bytes) (l : LocationLine) : Prop :=
  if ip.take 12 = v4mappedPrefix then ∃ p, l.ipPrefix = 102 :: p ∧ p <+: ip.drop 12
  else ∃ p, l.ipPrefix = 115 :: p ∧ p <+: ip6FmtFlat ip ∧ 1 ≤ p.length ∧ p.length ≤ 16

/-- The longest prefix is found: for an IPv4 address always; else when there is none, when it is one
that is tried, or when what is found instead says the same. -/
def LongestFound (lines : List LocationLine) (ip : Bytes) : Prop :=
  ip.take 12 = v4mappedPrefix ∨ (∀ l ∈ lines, ¬ l.Matches ip) ∨
    ∃ l, Longest (·.Matches ip) lines l ∧
      (l.Tried ip ∨
        (∃ s, Longest (·.Tried ip) lines s ∧ lines.find? (·.ipPrefix = s.ipPrefix) = some s ∧
          s.loc = l.loc) ∨
        (∀ s ∈ lines, ¬ s.Tried ip) ∧ l.loc = [0, 0])

theorem ip6FmtFlat_length (ip : Bytes) : (ip6FmtFlat ip).length = 2 * ip.length := by
  induction ip with
  | nil => rfl
  | cons b ip ih =>
    change (ip6FmtFlat ip).length + 1 + 1 = 2 * (ip.length + 1)
    rw [ih]
    omega

theorem lowerByte_tohex : ∀ b : UInt8,
    lowerByte (tohex (b / 16)) = tohex (b / 16) ∧ lowerByte (tohex (b % 16)) = tohex (b % 16) := by
  decide +kernel

/-- `ip6_fmt_flat` writes in lower case. -/
theorem lower_ip6FmtFlat (ip : Bytes) : lower (ip6FmtFlat ip) = ip6FmtFlat ip := by
  unfold lower ip6FmtFlat
  rw [List.map_flatMap]
  refine List.flatMap_congr fun b _ => ?_
  rw [List.map_cons, List.map_cons, List.map_nil, (lowerByte_tohex b).1, (lowerByte_tohex b).2]

/-- What is tried matches. -/
theorem LocationLine.Tried.matches {l : LocationLine} {ip : Bytes} (tried : l.Tried ip) :
    l.Matches ip := by
  unfold Matches
  unfold Tried at tried
  split
  · rename_i mapped
    rw [if_pos mapped] at tried
    exact tried
  · rename_i unmapped
    rw [if_neg unmapped] at tried
    obtain ⟨p, key, is, -⟩ := tried
    refine ⟨p, key, ?_⟩
    rw [← lower_ip6FmtFlat ip]
    exact is.map lowerByte

/-- Two lines that are tried and equally long have the same prefix. -/
theorem LocationLine.Tried.same {l l' : LocationLine} {ip : Bytes} (tried : l.Tried ip)
    (tried' : l'.Tried ip) (size : l.ipPrefix.length = l'.ipPrefix.length) :
    l.ipPrefix = l'.ipPrefix := by
  have sole {p p' s : Bytes} {family : UInt8} (is : p <+: s) (is' : p' <+: s)
      (key : l.ipPrefix = family :: p) (key' : l'.ipPrefix = family :: p') :
      l.ipPrefix = l'.ipPrefix := by
    rw [key, key', List.length_cons, List.length_cons] at size
    rw [key, key', (List.prefix_of_prefix_length_le is is' (by omega)).eq_of_length (by omega)]
  unfold Tried at tried tried'
  by_cases mapped : ip.take 12 = v4mappedPrefix
  · rw [if_pos mapped] at tried tried'
    obtain ⟨p, key, is⟩ := tried
    obtain ⟨p', key', is'⟩ := tried'
    exact sole is is' key key'
  · rw [if_neg mapped] at tried tried'
    obtain ⟨p, key, is, -⟩ := tried
    obtain ⟨p', key', is', -⟩ := tried'
    exact sole is is' key key'

/-- Where a longest match is tried, the longest lines that are tried match as well as it does. -/
theorem Longest.of_tried {lines : List LocationLine} {ip : Bytes} {l s : LocationLine}
    (longest : Longest (·.Matches ip) lines l) (tried : l.Tried ip)
    (found : Longest (·.Tried ip) lines s) : Longest (·.Matches ip) lines s :=
  ⟨found.1, found.2.1.matches, fun l' hl' ok =>
    (longest.2.2 l' hl' ok).trans (found.2.2 l longest.1 tried)⟩

/-! ## The records of the lines -/

section

variable {env : Env}

/-- Under the key of a location there is what the first line with its prefix says. -/
theorem find_location {lines : List Bytes} {records : List CdbRecord}
    (h : compileLines env lines = .ok records) (key : Bytes) :
    records.find? (fun r => decide (r.key = 0 :: 37 :: key)) =
      ((lines.filterMap locationLine).find? (·.ipPrefix = key)).map fun l =>
        ⟨0 :: 37 :: l.ipPrefix, l.loc⟩ := by
  induction lines generalizing records with
  | nil =>
    cases h
    rfl
  | cons line lines ih =>
    simp only [compileLines, bind_eq_ok] at h
    obtain ⟨first, hfirst, more, hmore, h⟩ := h
    cases h
    rw [List.find?_append, ih hmore]
    have other (named : AllFiled first) (no : locationLine line = none) :
        (first.find? fun r => decide (r.key = 0 :: 37 :: key)) = none ∧
          (line :: lines).filterMap locationLine = lines.filterMap locationLine := by
      refine ⟨List.find?_eq_none.mpr fun r hr => ?_, List.filterMap_cons_none no⟩
      rw [decide_eq_true_eq]
      exact (named r hr).key key
    unfold compileLine at hfirst
    split at hfirst
    · rename_i empty
      cases hfirst
      obtain ⟨none, same⟩ := other .nil (by unfold locationLine; rw [empty])
      rw [none, same, Option.none_or]
    · rename_i kind rest hline
      by_cases percent : kind = 37
      · subst percent
        cases hfirst
        have there : locationLine line =
            some ⟨ipprefixCat (cString (fields rest 1)), locparse (fields rest 0)⟩ := by
          unfold locationLine
          rw [hline]
          rfl
        rw [List.filterMap_cons_some there, List.find?_cons, compilePercent, List.find?_singleton]
        by_cases hit : ipprefixCat (cString (fields rest 1)) = key
        · simp [hit]
        · simp [hit]
      · have no : locationLine line = none := by
          unfold locationLine
          rw [hline]
          split
          · rename_i again
            cases again
            exact absurd rfl percent
          · rfl
        obtain ⟨none, same⟩ := other (compileKind_filed percent hfirst) no
        rw [none, same, Option.none_or]

variable {text : Bytes} {records : List CdbRecord} (h : compileFile env text = .ok records)
include h

theorem cdbFind_location (key : Bytes) :
    cdbFind (Database.ofFile h) (0 :: 37 :: key) =
      ((locationLines text).find? (·.ipPrefix = key)).map LocationLine.loc := by
  have found := find_location h key
  unfold cdbFind Database.ofFile
  rw [found, Option.map_map]
  rfl

/-- The search of one family goes by the lines of that family. -/
theorem search_location (family : UInt8) (s : Bytes) (lengths : List Nat)
    (falling : lengths.Pairwise (· > ·)) (within : ∀ n ∈ lengths, n ≤ s.length)
    {tried : LocationLine → Prop}
    (htried : ∀ l, tried l ↔ ∃ p, l.ipPrefix = family :: p ∧ p <+: s ∧ p.length ∈ lengths) :
    (∃ l, Longest tried (locationLines text) l ∧
      (locationLines text).find? (·.ipPrefix = l.ipPrefix) = some l ∧
      Prefixes.search (fun p => cdbFind (Database.ofFile h) (0 :: 37 :: family :: p)) s lengths =
        some l.loc) ∨
    (∀ l ∈ locationLines text, ¬ tried l) ∧
      Prefixes.search (fun p => cdbFind (Database.ofFile h) (0 :: 37 :: family :: p)) s lengths =
        none := by
  have finds := Prefixes.search_finds
    (fun p => cdbFind (Database.ofFile h) (0 :: 37 :: family :: p)) s falling within
  generalize Prefixes.search (fun p => cdbFind (Database.ofFile h) (0 :: 37 :: family :: p)) s
    lengths = answer at finds ⊢
  have isSome {l : LocationLine} (hl : l ∈ locationLines text) {p : Bytes}
      (hp : l.ipPrefix = family :: p) :
      (cdbFind (Database.ofFile h) (0 :: 37 :: family :: p)).isSome := by
    rw [cdbFind_location h, Option.isSome_map, List.find?_isSome]
    exact ⟨l, hl, decide_eq_true hp⟩
  cases finds with
  | @longest p b is length there longest =>
    left
    rw [cdbFind_location h] at there
    obtain ⟨l, hl, rfl⟩ := Option.map_eq_some_iff.mp there
    have key : l.ipPrefix = family :: p := by
      have named := List.find?_some hl
      simpa using named
    refine ⟨l, ⟨List.mem_of_find?_eq_some hl, (htried l).mpr ⟨p, key, is, length⟩, ?_⟩, ?_, rfl⟩
    · intro l' hl' tried'
      obtain ⟨p', key', is', length'⟩ := (htried l').mp tried'
      have shorter := longest p' is' length' (isSome hl' key')
      rw [key, key', List.length_cons, List.length_cons]
      omega
    · rw [key]
      exact hl
  | none nothing =>
    right
    refine ⟨fun l hl tried' => ?_, rfl⟩
    obtain ⟨p, key, is, length⟩ := (htried l).mp tried'
    have found := isSome hl key
    rw [nothing p is length] at found
    cases found

/-- A location is two octets, so that all that is found counts. -/
theorem findClientLoc_keys {ip : Bytes} (family : UInt8) (tail : Bytes) {lengths : List Nat}
    (keys : locationKeys ip = lengths.map fun n => 0 :: 37 :: family :: tail.take n) :
    findClientLoc (Database.ofFile h) ip =
      (Prefixes.search (fun p => cdbFind (Database.ofFile h) (0 :: 37 :: family :: p)) tail
        lengths).getD [0, 0] := by
  unfold findClientLoc Prefixes.search
  rw [keys, List.findSome?_map]
  have looked : cdbFind (Database.ofFile h) ∘ (fun n => 0 :: 37 :: family :: tail.take n) =
      fun n => cdbFind (Database.ofFile h) (0 :: 37 :: family :: tail.take n) := rfl
  rw [looked]
  cases found : lengths.findSome? fun n =>
      cdbFind (Database.ofFile h) (0 :: 37 :: family :: tail.take n) with
  | none => rfl
  | some loc =>
    obtain ⟨n, -, there⟩ := List.exists_of_findSome?_eq_some found
    rw [cdbFind_location h] at there
    obtain ⟨l, hl, rfl⟩ := Option.map_eq_some_iff.mp there
    obtain ⟨line, -, made⟩ := List.mem_filterMap.mp (List.mem_of_find?_eq_some hl)
    have two : l.loc.length = 2 := by
      unfold locationLine at made
      split at made
      · cases made
        rfl
      · cases made
    change (if l.loc.length = 2 then l.loc else [0, 0]) = l.loc
    rw [if_pos two]

/-- What a location is found by: the first of the longest lines that are tried. -/
theorem findClientLoc_spec {ip : Bytes} (whole : ip.length = 16) :
    (∃ l, Longest (·.Tried ip) (locationLines text) l ∧
      (locationLines text).find? (·.ipPrefix = l.ipPrefix) = some l ∧
      findClientLoc (Database.ofFile h) ip = l.loc) ∨
    (∀ l ∈ locationLines text, ¬ l.Tried ip) ∧ findClientLoc (Database.ofFile h) ip = [0, 0] := by
  by_cases mapped : ip.take 12 = v4mappedPrefix
  · have keys : locationKeys ip =
        [4, 3, 2, 1, 0].map fun n => 0 :: 37 :: 102 :: (ip.drop 12).take n := by
      unfold locationKeys
      rw [if_pos mapped]
      rfl
    have size : (ip.drop 12).length = 4 := by
      rw [List.length_drop, whole]
    rw [findClientLoc_keys h 102 (ip.drop 12) keys]
    have tried (l : LocationLine) : l.Tried ip ↔
        ∃ p, l.ipPrefix = 102 :: p ∧ p <+: ip.drop 12 ∧ p.length ∈ [4, 3, 2, 1, 0] := by
      unfold LocationLine.Tried
      rw [if_pos mapped]
      refine exists_congr fun p => and_congr_right fun _ => (and_iff_left_of_imp fun is => ?_).symm
      have := is.length_le
      simp only [List.mem_cons, List.not_mem_nil, or_false]
      omega
    obtain ⟨l, longest, first, found⟩ | ⟨nothing, found⟩ :=
      search_location h 102 (ip.drop 12) [4, 3, 2, 1, 0] (by decide)
        (by rw [size]; decide) tried
    · exact .inl ⟨l, longest, first, by rw [found]; rfl⟩
    · exact .inr ⟨nothing, by rw [found]; rfl⟩
  · have keys : locationKeys ip =
        [16, 15, 14, 13, 12, 11, 10, 9, 8, 7, 6, 5, 4, 3, 2, 1].map fun n =>
          0 :: 37 :: 115 :: (ip6FmtFlat ip).take n := by
      unfold locationKeys
      rw [if_neg mapped]
      rfl
    have size : (ip6FmtFlat ip).length = 32 := by
      rw [ip6FmtFlat_length, whole]
    rw [findClientLoc_keys h 115 (ip6FmtFlat ip) keys]
    have tried (l : LocationLine) : l.Tried ip ↔
        ∃ p, l.ipPrefix = 115 :: p ∧ p <+: ip6FmtFlat ip ∧
          p.length ∈ [16, 15, 14, 13, 12, 11, 10, 9, 8, 7, 6, 5, 4, 3, 2, 1] := by
      unfold LocationLine.Tried
      rw [if_neg mapped]
      refine exists_congr fun p => and_congr_right fun _ => and_congr_right fun _ => ?_
      simp only [List.mem_cons, List.not_mem_nil, or_false]
      omega
    obtain ⟨l, longest, first, found⟩ | ⟨nothing, found⟩ :=
      search_location h 115 (ip6FmtFlat ip)
        [16, 15, 14, 13, 12, 11, 10, 9, 8, 7, 6, 5, 4, 3, 2, 1] (by decide)
        (by rw [size]; decide) tried
    · exact .inl ⟨l, longest, first, by rw [found]; rfl⟩
    · exact .inr ⟨nothing, by rw [found]; rfl⟩

end

/-! ## The longest prefix -/

/-- `find_client_loc` answers with the location of the longest prefix that matches exactly when that
is one it tries, or chance has it that what it finds says the same. -/
theorem inLocation_iff {env : Env} {text : Bytes} {records : List CdbRecord}
    (h : compileFile env text = .ok records) {ip : Bytes} (whole : ip.length = 16) :
    InLocation (locationLines text) ip (findClientLoc (Database.ofFile h) ip) ↔
      LongestFound (locationLines text) ip := by
  have spec := findClientLoc_spec h whole
  generalize findClientLoc (Database.ofFile h) ip = loc at spec ⊢
  constructor
  · rintro (⟨l, longest, rfl⟩ | ⟨nothing, -⟩)
    · refine .inr (.inr ⟨l, longest, .inr ?_⟩)
      obtain ⟨s, found, first, same⟩ | ⟨nothing, same⟩ := spec
      · exact .inl ⟨s, found, first, same.symm⟩
      · exact .inr ⟨nothing, same⟩
    · exact .inr (.inl nothing)
  · rintro (mapped | nothing | ⟨l, longest, tried | ⟨s, found, first, same⟩ | ⟨nothing, null⟩⟩)
    · -- every prefix of an IPv4 address is tried
      have matches_iff (l : LocationLine) : l.Matches ip ↔ l.Tried ip := by
        unfold LocationLine.Matches LocationLine.Tried
        rw [if_pos mapped, if_pos mapped]
      obtain ⟨s, found, -, same⟩ | ⟨nothing, same⟩ := spec
      · refine .inl ⟨s, ⟨found.1, found.2.1.matches, fun l' hl' ok => ?_⟩, same.symm⟩
        exact found.2.2 l' hl' ((matches_iff l').mp ok)
      · exact .inr ⟨fun l hl ok => nothing l hl ((matches_iff l).mp ok), same⟩
    · obtain ⟨s, found, -, -⟩ | ⟨-, same⟩ := spec
      · exact absurd found.2.1.matches (nothing s found.1)
      · exact .inr ⟨nothing, same⟩
    · obtain ⟨s, found, -, same⟩ | ⟨nothing, -⟩ := spec
      · exact .inl ⟨s, longest.of_tried tried found, same.symm⟩
      · exact absurd tried (nothing l longest.1)
    · obtain ⟨s', found', first', same'⟩ | ⟨nothing, -⟩ := spec
      · have size : s.ipPrefix.length = s'.ipPrefix.length :=
          Nat.le_antisymm (found'.2.2 s found.1 found.2.1) (found.2.2 s' found'.1 found'.2.1)
        rw [found.2.1.same found'.2.1 size, first'] at first
        cases first
        exact .inl ⟨l, longest, same.symm.trans same'.symm⟩
      · exact absurd found.2.1 (nothing s found.1)
    · obtain ⟨s, found, -, -⟩ | ⟨-, same⟩ := spec
      · exact absurd found.2.1 (nothing s found.1)
      · exact .inl ⟨l, longest, null.trans same.symm⟩

/-- A location for all IPv6 clients, and one for those of a network. -/
def twoPlaces : Bytes := ascii "%ex:s\n%in:s2001"

theorem compileFile_twoPlaces : compileFile ⟨0, 0⟩ twoPlaces =
    .ok [⟨[0, 37] ++ ascii "s", ascii "ex"⟩, ⟨[0, 37] ++ ascii "s2001", ascii "in"⟩] := by
  decide +kernel

/-- A client of the network. -/
def inside : Bytes := [32, 1, 13, 184, 0, 0, 0, 0, 0, 0, 0, 0, 0, 0, 0, 1]

theorem inLocation_inside :
    InLocation (locationLines twoPlaces) inside
      (findClientLoc (Database.ofFile compileFile_twoPlaces) inside) := by
  refine (inLocation_iff compileFile_twoPlaces (by decide)).mpr (.inr (.inr ?_))
  have there : locationLines twoPlaces =
      [⟨ascii "s", ascii "ex"⟩, ⟨ascii "s2001", ascii "in"⟩] := by decide +kernel
  have tried : LocationLine.Tried inside ⟨ascii "s2001", ascii "in"⟩ :=
    ⟨ascii "2001", by decide +kernel, by decide +kernel, by decide, by decide⟩
  have longest : ∀ l' ∈ [(⟨ascii "s", ascii "ex"⟩ : LocationLine), ⟨ascii "s2001", ascii "in"⟩],
      l'.ipPrefix.length ≤ 5 := by decide +kernel
  rw [there]
  exact ⟨_, ⟨by decide, tried.matches, fun l' hl' _ => longest l' hl'⟩, .inl tried⟩

/-- The location for all clients is found for none. -/
theorem inLocation_outside :
    ¬ ∀ (env : Env) (text : Bytes) (records : List CdbRecord)
      (h : compileFile env text = .ok records) (ip : Bytes), ip.length = 16 →
      InLocation (locationLines text) ip (findClientLoc (Database.ofFile h) ip) := by
  intro all
  have there : locationLines twoPlaces =
      [⟨ascii "s", ascii "ex"⟩, ⟨ascii "s2001", ascii "in"⟩] := by decide +kernel
  have null : findClientLoc (Database.ofFile compileFile_twoPlaces) (.replicate 16 32) = [0, 0] := by
    decide +kernel
  have located := all _ _ _ compileFile_twoPlaces (.replicate 16 32) (by decide)
  rw [there, null] at located
  obtain ⟨l, longest, nowhere⟩ | ⟨nothing, -⟩ := located
  · have known : ∀ l ∈ [(⟨ascii "s", ascii "ex"⟩ : LocationLine), ⟨ascii "s2001", ascii "in"⟩],
        l.loc ≠ [0, 0] := by decide +kernel
    exact known l longest.1 nowhere
  · exact nothing ⟨ascii "s", ascii "ex"⟩ (by decide) ⟨[], by decide +kernel, List.nil_prefix⟩

end TinyDnssec
