import TinyDnssec.Data.Database

/-!
# `.` lines under `tinydns-sign`

`tinydns-sign` prints a `&` line and a `Z` line in the place of a `.` line, so that the SOA record
it signs has the serial number it knows. The `&` line always makes the NS and A records of the
`.` line. The `Z` line is written by position, with a run of empty fields between the names and
the ttl, and one colon is missing in the run: the ttl becomes the minimum of the SOA record, the
timestamp its ttl, and the location its timestamp.

What becomes of the other lines is not followed here.
-/

namespace TinyDnssec.Sign

open Octets Loop Data

/-! ## The rewriting -/

/-- What `\s` matches. -/
def isSpace (b : UInt8) : Bool := decide (b = 32) || (decide (9 ≤ b) && decide (b ≤ 13))

/-- `s/\s+$//s` -/
def stripSpace (line : Bytes) : Bytes := (line.reverse.dropWhile isSpace).reverse

/-- The groups of the pattern for `.` lines. -/
structure DotLine where
  dom : Bytes
  ip : Bytes
  ns : Bytes
  ttl : Bytes
  ts : Bytes
  lo : Bytes

/-- `/^\.([^:]*):([0-9.]*):([^:]+):(\d*):(\d*):([^:]*)$/` -/
def matchDot : Bytes → Option DotLine
  | 46 :: rest =>
    match split 58 rest with
    | [dom, ip, ns, ttl, ts, lo] =>
      if (ip.all fun b => isDigit b || decide (b = 46)) && decide (ns ≠ []) && ttl.all isDigit &&
        ts.all isDigit then some ⟨dom, ip, ns, ttl, ts, lo⟩ else none
    | _ => none
  | _ => none

/-- `while (! /…/) { $_ .= ':'; }`. A line with more than five colons does not match any more, so
six rounds tell whether the loop ends. -/
def padDot : Nat → Bytes → Option DotLine
  | 0, _ => none
  | rounds + 1, line =>
    match matchDot line with
    | some f => some f
    | none => padDot rounds (line ++ [58])

/-- `split /:/`: empty fields at the end are dropped. -/
def splitColons (s : Bytes) : List Bytes :=
  ((split 58 s).reverse.dropWhile fun f => decide (f = [])).reverse

/-- `$fields[3] = $now` -/
def setSerial (now : Bytes) (fields : List Bytes) : List Bytes :=
  fields.take 3 ++ (List.replicate (3 - fields.length) [] ++ now :: fields.drop 4)

/-- The serial number of a `Z` line becomes the current time, unless it begins with two zeroes. -/
def stampSerial (now line : Bytes) : Bytes :=
  let fields := splitColons line
  if fields.length < 4 ∨ ¬ ascii "00" <+: fields.getD 3 [] then join 58 (setSerial now fields)
  else line

/-- `"Z$dom:$ns:hostmaster.${dom}:::::$ttl:$ts:$lo\n"` -/
def DotLine.soaLine (f : DotLine) : Bytes :=
  let dom := lower f.dom
  let ns := qualify ".ns." dom (lower f.ns)
  ascii "Z" ++ dom ++ ascii ":" ++ ns ++ ascii ":hostmaster." ++ dom ++ ascii ":::::" ++ f.ttl ++
    ascii ":" ++ f.ts ++ ascii ":" ++ f.lo ++ ascii "\n"

/-- `"\&$dom:$ip:$ns:$ttl:$ts:$lo\n"` -/
def DotLine.nsLine (f : DotLine) : Bytes :=
  ascii "&" ++ f.dom ++ ascii ":" ++ f.ip ++ ascii ":" ++ f.ns ++ ascii ":" ++ f.ttl ++ ascii ":" ++
    f.ts ++ ascii ":" ++ f.lo ++ ascii "\n"

/-- What is printed for a `.` line; `none` is no end. `soaThere` tells whether the zone has an SOA
record already. -/
def signDot (now : Nat) (soaThere : Bool) (raw : Bytes) : Option Bytes :=
  let line := stripSpace raw
  (padDot 6 line).map fun f =>
    ascii "# Was: " ++ line ++ ascii "\n" ++ (f.nsLine ++
      if soaThere then [] else stampSerial (decimal now) f.soaLine ++ ascii "\n")

/-! ## What has to be kept -/

/-- Two records that differ in a serial number at most, four octets that stand before the last
sixteen. -/
def SameButSerial (a b : CdbRecord) : Prop :=
  a.key = b.key ∧ ∃ front serial serial' back, a.data = front ++ (serial ++ back) ∧
    b.data = front ++ (serial' ++ back) ∧ serial.length = 4 ∧ serial'.length = 4 ∧ back.length = 16

/-- The printed text makes the records of the line: the SOA record with a serial number of its own,
and only where the zone has none before. -/
def Preserves (env : Env) (line printed : Bytes) (soaThere : Bool) : Prop :=
  match compileLine env line with
  | .error why => compileFile env printed = .error why
  | .ok records => ∃ soa soa' servers, records = soa :: servers ∧ SameButSerial soa soa' ∧
      compileFile env printed = .ok (servers ++ if soaThere then [] else [soa'])

/-- The names in the line can be read. -/
def DotLine.Reads (f : DotLine) : Prop :=
  dnsDomainFromdot f.dom ≠ none ∧ dnsDomainFromdot (qualify ".ns." f.dom f.ns) ≠ none

/-- The fields of a line that loses nothing by a `Z` line with one colon missing. -/
structure DotLine.Aligned (f : DotLine) : Prop where
  zone : dnsDomainFromdot (lower f.dom) = dnsDomainFromdot f.dom
  server : dnsDomainFromdot (qualify ".ns." (lower f.dom) (lower f.ns)) =
    dnsDomainFromdot (qualify ".ns." f.dom f.ns)
  contact : dnsDomainFromdot (ascii "hostmaster." ++ lower f.dom) ≠ none
  minimum : be32 (scanUlongOr ttlNegative f.ttl) = be32 ttlNegative
  ttl : be32 (scanUlongOr ttlNegative f.ts) = be32 ttlNegative
  timestamp : ttdparse f.lo = ttdparse f.ts
  location : locparse f.lo = [0, 0]

/-! ## The fields -/

def DotLine.fields (f : DotLine) : List Bytes := [f.dom, f.ip, f.ns, f.ttl, f.ts, f.lo]

theorem matchDot_spec {line : Bytes} {f : DotLine} (h : matchDot line = some f) :
    ∃ rest, line = 46 :: rest ∧ split 58 rest = f.fields := by
  unfold matchDot at h
  split at h
  · rename_i rest
    split at h
    · rename_i hsplit
      split at h
      · cases h
        exact ⟨rest, rfl, hsplit⟩
      · cases h
    · cases h
  · cases h

theorem padDot_spec {rounds : Nat} {line : Bytes} {f : DotLine} (h : padDot rounds line = some f) :
    ∃ k, matchDot (line ++ List.replicate k 58) = some f := by
  induction rounds generalizing line with
  | zero => cases h
  | succ rounds ih =>
    unfold padDot at h
    split at h
    · rename_i hmatch
      cases h
      exact ⟨0, by rwa [List.replicate_zero, List.append_nil]⟩
    · obtain ⟨k, hk⟩ := ih h
      refine ⟨k + 1, ?_⟩
      rw [List.append_assoc] at hk
      exact hk

/-- **The loop ends within six rounds, or never.** -/
theorem padDot_none {line : Bytes} (h : padDot 6 line = none) (k : Nat) :
    matchDot (line ++ List.replicate k 58) = none := by
  have few {rounds : Nat} {line : Bytes} (h : padDot rounds line = none) :
      ∀ k < rounds, matchDot (line ++ List.replicate k 58) = none := by
    induction rounds generalizing line with
    | zero => exact fun _ hk => absurd hk (Nat.not_lt_zero _)
    | succ rounds ih =>
      unfold padDot at h
      split at h
      · cases h
      · rename_i hmatch
        intro k hk
        cases k with
        | zero => rwa [List.replicate_zero, List.append_nil]
        | succ k =>
          have hrest := ih h k (Nat.lt_of_succ_lt_succ hk)
          rw [List.append_assoc] at hrest
          exact hrest
  rcases Nat.lt_or_ge k 6 with hk | hk
  · exact few h k hk
  · -- six fields have five colons between them
    cases hmatch : matchDot (line ++ List.replicate k 58) with
    | none => rfl
    | some f =>
      obtain ⟨rest, hline, hsplit⟩ := matchDot_spec hmatch
      exfalso
      cases line with
      | nil =>
        cases k with
        | zero => cases hline
        | succ k => exact absurd (List.cons.inj hline).1 (by decide)
      | cons c s =>
        rw [List.cons_append] at hline
        rw [← (List.cons.inj hline).2, split_pad] at hsplit
        have hlen := congrArg List.length hsplit
        have hpos := List.length_pos_iff.mpr (split_ne_nil 58 s)
        rw [List.length_append, List.length_replicate] at hlen
        have hsix : f.fields.length = 6 := rfl
        omega

/-- A rest of a `.` line that some colons make match: a field that is not there is empty. -/
structure Matchable (rest : Bytes) : Prop where
  few : (split 58 rest).length ≤ 6
  ip : ((split 58 rest).getD 1 []).all (fun b => isDigit b || decide (b = 46)) = true
  ns : (split 58 rest).getD 2 [] ≠ []
  ttl : ((split 58 rest).getD 3 []).all isDigit = true
  ts : ((split 58 rest).getD 4 []).all isDigit = true

theorem getD_replicate (fs : List Bytes) (k i : Nat) :
    (fs ++ List.replicate k []).getD i [] = fs.getD i [] := by
  rw [List.getD_eq_getElem?_getD, List.getD_eq_getElem?_getD, List.getElem?_append]
  split
  · rfl
  · rename_i hout
    rw [List.getElem?_eq_none (Nat.not_lt.mp hout), List.getElem?_replicate]
    split <;> rfl

theorem matchDot_fields {rest dom ip ns ttl ts lo : Bytes}
    (h : split 58 rest = [dom, ip, ns, ttl, ts, lo]) :
    (matchDot (46 :: rest)).isSome = true ↔
      ip.all (fun b => isDigit b || decide (b = 46)) = true ∧ ns ≠ [] ∧ ttl.all isDigit = true ∧
        ts.all isDigit = true := by
  unfold matchDot
  simp only [h]
  split
  · rename_i hall
    simp only [Bool.and_eq_true, decide_eq_true_eq] at hall
    exact iff_of_true rfl ⟨hall.1.1.1, hall.1.1.2, hall.1.2, hall.2⟩
  · rename_i hall
    simp only [Bool.and_eq_true, decide_eq_true_eq] at hall
    exact iff_of_false Bool.false_ne_true fun hs => hall ⟨⟨⟨hs.1, hs.2.1⟩, hs.2.2.1⟩, hs.2.2.2⟩

/-- Colons at the end make a line match exactly when its fields allow it. -/
theorem matchable_iff (rest : Bytes) :
    (∃ k, (matchDot (46 :: rest ++ List.replicate k 58)).isSome = true) ↔ Matchable rest := by
  constructor
  · rintro ⟨k, hk⟩
    obtain ⟨f, hf⟩ := Option.isSome_iff_exists.mp hk
    obtain ⟨padded, hline, hsplit⟩ := matchDot_spec hf
    rw [List.cons_append] at hline hk
    rw [← (List.cons.inj hline).2] at hsplit
    obtain ⟨hip, hns, httl, hts⟩ := (matchDot_fields hsplit).mp hk
    rw [split_pad] at hsplit
    have hget (i : Nat) : (split 58 rest).getD i [] = f.fields.getD i [] := by
      rw [← hsplit, getD_replicate]
    have hlen := congrArg List.length hsplit
    rw [List.length_append] at hlen
    refine ⟨?_, by rwa [hget], by rwa [hget], by rwa [hget], by rwa [hget]⟩
    rw [show f.fields.length = 6 from rfl] at hlen
    omega
  · intro h
    have hlen : (split 58 rest ++ List.replicate (6 - (split 58 rest).length) []).length = 6 := by
      have hfew := h.few
      rw [List.length_append, List.length_replicate]
      omega
    have hget := getD_replicate (split 58 rest) (6 - (split 58 rest).length)
    refine ⟨6 - (split 58 rest).length, ?_⟩
    rw [← split_pad] at hlen hget
    rw [List.cons_append]
    match hsplit : split 58 (rest ++ List.replicate (6 - (split 58 rest).length) 58), hlen with
    | [dom, ip, ns, ttl, ts, lo], _ =>
      rw [hsplit] at hget
      refine (matchDot_fields hsplit).mpr ⟨?_, ?_, ?_, ?_⟩
      · rw [show ip = _ from hget 1]
        exact h.ip
      · rw [show ns = _ from hget 2]
        exact h.ns
      · rw [show ttl = _ from hget 3]
        exact h.ttl
      · rw [show ts = _ from hget 4]
        exact h.ts

theorem stripSpace_dot (rest : Bytes) : ∃ kept, stripSpace (46 :: rest) = 46 :: kept := by
  unfold stripSpace
  rw [List.reverse_cons, List.dropWhile_append]
  split
  · exact ⟨[], rfl⟩
  · exact ⟨_, by rw [List.reverse_append]; rfl⟩

/-- **The loop ends** exactly on the lines whose fields, of which there are at most six, have the
characters the pattern allows and a server name. -/
theorem padDot_stops_iff (rest : Bytes) :
    (∃ rounds, (padDot rounds (stripSpace (46 :: rest))).isSome = true) ↔
      Matchable (stripSpace (46 :: rest)).tail := by
  obtain ⟨kept, hkept⟩ := stripSpace_dot rest
  rw [hkept, List.tail_cons, ← matchable_iff]
  constructor
  · rintro ⟨rounds, hrounds⟩
    obtain ⟨f, hf⟩ := Option.isSome_iff_exists.mp hrounds
    obtain ⟨k, hk⟩ := padDot_spec hf
    exact ⟨k, by rw [hk]; rfl⟩
  · rintro ⟨k, hk⟩
    cases hrun : padDot 6 (46 :: kept) with
    | some f => exact ⟨6, by rw [hrun]; rfl⟩
    | none =>
      rw [padDot_none hrun k] at hk
      cases hk

/-- A line of the tests of `tinydns-data`, with a timestamp and no server name. -/
def stampedLine : Bytes := ascii ".five:1.2.3.5:::30000000fedcba98"

theorem padDot_endless : ¬ ∀ (env : Env) (line : Bytes) (records : List CdbRecord),
    line.head? = some 46 → compileLine env line = .ok records →
    ∃ rounds, (padDot rounds (stripSpace line)).isSome = true := by
  intro h
  have hrun : (compileLine ⟨1, 0⟩ stampedLine).isOk = true := by decide +kernel
  obtain ⟨records, hrecords⟩ := exists_of_isOk hrun
  obtain ⟨rounds, hrounds⟩ := h ⟨1, 0⟩ stampedLine records rfl hrecords
  obtain ⟨f, hf⟩ := Option.isSome_iff_exists.mp hrounds
  obtain ⟨k, hk⟩ := padDot_spec hf
  have hnone : padDot 6 (stripSpace stampedLine) = none := Option.isNone_iff_eq_none.mp (by decide +kernel)
  rw [padDot_none hnone k] at hk
  cases hk

/-- What a line that is not blank keeps at its end. -/
theorem trimLine_stripSpace (raw : Bytes) : trimLine (stripSpace raw) = stripSpace raw := by
  rw [trimLine_eq_iff]
  intro b hb
  have hspace : ∀ b, isSpace b = false → isBlank b = false := by decide +kernel
  apply hspace
  unfold stripSpace at hb
  rw [List.getLast?_reverse] at hb
  have hhead := List.head?_dropWhile_not isSpace raw.reverse
  cases hdrop : raw.reverse.dropWhile isSpace with
  | nil =>
    rw [hdrop] at hb
    cases hb
  | cons c s =>
    rw [hdrop] at hb hhead
    cases hb
    simpa using hhead

/-- What a line that matches is made of. -/
theorem padDot_line {raw : Bytes} {f : DotLine} (h : padDot 6 (stripSpace raw) = some f) :
    ∃ rest k, stripSpace raw = 46 :: rest ∧ trimLine rest = rest ∧
      split 58 rest ++ List.replicate k [] = f.fields ∧
      join 58 f.fields = rest ++ List.replicate k 58 := by
  obtain ⟨k, hmatch⟩ := padDot_spec h
  obtain ⟨padded, hline, hsplit⟩ := matchDot_spec hmatch
  have htrim := trimLine_stripSpace raw
  cases hraw : stripSpace raw with
  | nil =>
    rw [hraw] at hline
    cases k with
    | zero => cases hline
    | succ k => exact absurd (List.cons.inj hline).1 (by decide)
  | cons c rest =>
    rw [hraw, List.cons_append] at hline
    obtain ⟨rfl, rfl⟩ := List.cons.inj hline
    rw [hraw, trimLine_cons rfl] at htrim
    refine ⟨rest, k, rfl, (List.cons.inj htrim).2, ?_, ?_⟩
    · rw [← split_pad, hsplit]
    · rw [← hsplit, join_split]

/-- The fields end where a line that is not blank ends. -/
theorem padDot_last {raw : Bytes} {f : DotLine} (h : padDot 6 (stripSpace raw) = some f) :
    ∀ b ∈ f.lo.getLast?, isBlank b = false := by
  obtain ⟨rest, k, _, hwhole, _, hjoin⟩ := padDot_line h
  rw [← trimLine_join (List.cons_ne_nil f.dom [f.ip, f.ns, f.ttl, f.ts])]
  show trimLine (join 58 f.fields) = join 58 f.fields
  rw [hjoin]
  cases k with
  | zero => rwa [List.replicate_zero, List.append_nil]
  | succ k =>
    rw [List.replicate_succ', ← List.append_assoc]
    exact trimLine_of_last _ rfl

/-- The fields of a line that matches have no separators in them. -/
theorem padDot_clean {raw : Bytes} {f : DotLine} (h : padDot 6 (stripSpace raw) = some f)
    (line : 10 ∉ stripSpace raw) : ∀ field ∈ f.fields, Clean field := by
  obtain ⟨rest, k, hraw, _, hsplit, _⟩ := padDot_line h
  rw [hraw] at line
  intro field hfield
  rw [← hsplit] at hfield
  rcases List.mem_append.mp hfield with hfield | hfield
  · obtain ⟨hcolon, hpart⟩ := mem_split hfield
    refine fun b hb => ⟨fun h => hcolon (h ▸ hb), fun h => ?_⟩
    exact line (List.mem_cons_of_mem _ (hpart _ (h ▸ hb)))
  · rw [(List.mem_replicate.mp hfield).2]
    exact .nil

/-! ## What the lines make -/

/-- The fields as the compiler numbers them. -/
def DotLine.field (f : DotLine) (i : Nat) : Bytes := f.fields.getD i []

theorem compile_dot (env : Env) {raw : Bytes} {f : DotLine}
    (h : padDot 6 (stripSpace raw) = some f) :
    compileLine env (stripSpace raw) = compileNs env true f.field := by
  obtain ⟨rest, k, hraw, hwhole, hsplit, _⟩ := padDot_line h
  rw [hraw]
  exact compileLine_fields env rfl hwhole ⟨k, hsplit⟩

theorem nsLine_eq (f : DotLine) : f.nsLine = 38 :: join 58 f.fields ++ [10] := by
  unfold DotLine.nsLine DotLine.fields
  simp only [join, List.append_assoc, List.cons_append]
  rfl

theorem compile_nsLine (env : Env) {raw : Bytes} {f : DotLine}
    (h : padDot 6 (stripSpace raw) = some f) :
    compileLine env (38 :: join 58 f.fields) = compileNs env false f.field := by
  obtain ⟨rest, k, _, _, hsplit, hjoin⟩ := padDot_line h
  refine compileLine_fields env rfl ?_ ⟨0, ?_⟩
  · exact (trimLine_join (List.cons_ne_nil f.dom [f.ip, f.ns, f.ttl, f.ts]) f.lo).mpr (padDot_last h)
  · rw [hjoin, split_pad, hsplit]
    exact List.append_nil _

/-- The fields of the `Z` line. The serial number has been put in; the ttl is the eighth field. -/
def DotLine.soaFields (f : DotLine) (now : Nat) : List Bytes :=
  [lower f.dom, qualify ".ns." (lower f.dom) (lower f.ns), ascii "hostmaster." ++ lower f.dom,
    decimal now, [], [], [], f.ttl, f.ts, f.lo]

/-- Fields that were joined are all there, unless the last is empty. -/
theorem splitColons_join {fs : List Bytes} {last : Bytes} (some : last ≠ [])
    (clean : ∀ f ∈ fs ++ [last], (58 : UInt8) ∉ f) :
    splitColons (join 58 (fs ++ [last])) = fs ++ [last] := by
  unfold splitColons
  rw [split_join (by simp) clean, List.reverse_append, List.reverse_singleton,
    List.singleton_append, List.dropWhile_cons, if_neg (by simpa using some), List.reverse_cons,
    List.reverse_reverse]

theorem soaLine_eq (f : DotLine) :
    f.soaLine = join 58 ([90 :: lower f.dom, qualify ".ns." (lower f.dom) (lower f.ns),
      ascii "hostmaster." ++ lower f.dom, [], [], [], [], f.ttl, f.ts] ++ [f.lo ++ [10]]) := by
  unfold DotLine.soaLine
  simp only [join, List.append_assoc, List.cons_append, List.nil_append]
  rfl

theorem clean_lower {s : Bytes} (h : Clean s) : Clean (lower s) := by
  have hkept : ∀ b : UInt8, b ≠ 58 ∧ b ≠ 10 → lowerByte b ≠ 58 ∧ lowerByte b ≠ 10 := by
    decide +kernel
  intro b hb
  obtain ⟨c, hc, rfl⟩ := List.mem_map.mp hb
  exact hkept c (h c hc)

theorem clean_qualify {kind : String} {fqdn x : Bytes} (hkind : Clean (ascii kind))
    (hfqdn : Clean fqdn) (hx : Clean x) : Clean (qualify kind fqdn x) := by
  unfold qualify
  split
  · exact hx
  · exact (hx.append hkind).append hfqdn

/-- The fields of the `Z` line have no separators in them either. -/
theorem soaFields_clean {raw : Bytes} {f : DotLine} (h : padDot 6 (stripSpace raw) = some f)
    (line : 10 ∉ stripSpace raw) (now : Nat) : ∀ field ∈ f.soaFields now, Clean field := by
  have hclean := padDot_clean h line
  have hdom := clean_lower (hclean f.dom (by simp [DotLine.fields]))
  have hns := clean_lower (hclean f.ns (by simp [DotLine.fields]))
  intro field hfield
  simp only [DotLine.soaFields, List.mem_cons, List.not_mem_nil, or_false] at hfield
  rcases hfield with rfl | rfl | rfl | rfl | rfl | rfl | rfl | rfl | rfl | rfl
  · exact hdom
  · exact clean_qualify (by unfold Clean; decide +kernel) hdom hns
  · exact Clean.append (by unfold Clean; decide +kernel) hdom
  · exact clean_decimal now
  · exact .nil
  · exact .nil
  · exact .nil
  · exact hclean f.ttl (by simp [DotLine.fields])
  · exact hclean f.ts (by simp [DotLine.fields])
  · exact hclean f.lo (by simp [DotLine.fields])

theorem Clean.no_colon {s : Bytes} (h : Clean s) : (58 : UInt8) ∉ s := fun hb => (h _ hb).1 rfl

/-- **The serial number goes into the first of the empty fields**, and the other fields stay. -/
theorem stampSerial_soaLine {raw : Bytes} {f : DotLine} (h : padDot 6 (stripSpace raw) = some f)
    (line : 10 ∉ stripSpace raw) (now : Nat) :
    stampSerial (decimal now) f.soaLine = 90 :: join 58 (f.soaFields now) ++ [10] := by
  have hclean := soaFields_clean h line now
  have hlast : ∀ field ∈ [90 :: lower f.dom, qualify ".ns." (lower f.dom) (lower f.ns),
      ascii "hostmaster." ++ lower f.dom, [], [], [], [], f.ttl, f.ts] ++ [f.lo ++ [10]],
      (58 : UInt8) ∉ field := by
    intro field hfield
    simp only [List.cons_append, List.nil_append, List.mem_cons, List.not_mem_nil, or_false] at hfield
    rcases hfield with rfl | rfl | rfl | rfl | rfl | rfl | rfl | rfl | rfl | rfl
    · have hdom := Clean.no_colon (hclean (lower f.dom) (by simp [DotLine.soaFields]))
      exact fun hb => (List.mem_cons.mp hb).elim (by decide) hdom
    · exact Clean.no_colon (hclean _ (by simp [DotLine.soaFields]))
    · exact Clean.no_colon (hclean _ (by simp [DotLine.soaFields]))
    · exact List.not_mem_nil
    · exact List.not_mem_nil
    · exact List.not_mem_nil
    · exact List.not_mem_nil
    · exact Clean.no_colon (hclean _ (by simp [DotLine.soaFields]))
    · exact Clean.no_colon (hclean _ (by simp [DotLine.soaFields]))
    · have hlo := Clean.no_colon (hclean f.lo (by simp [DotLine.soaFields]))
      exact fun hb => (List.mem_append.mp hb).elim hlo (by decide)
  unfold stampSerial
  rw [soaLine_eq, splitColons_join (by simp) hlast]
  simp only []
  rw [if_pos (.inr (show ¬ ascii "00" <+: [] by decide))]
  unfold setSerial DotLine.soaFields
  simp only [List.cons_append, List.nil_append, List.take, List.drop, List.length, join,
    List.append_assoc]
  rfl

theorem compile_soaFields (env : Env) {raw : Bytes} {f : DotLine}
    (h : padDot 6 (stripSpace raw) = some f) (line : 10 ∉ stripSpace raw) (now : Nat) :
    compileLine env (90 :: join 58 (f.soaFields now)) =
      compileSoa env fun i => (f.soaFields now).getD i [] := by
  refine compileLine_fields env rfl ?_ ⟨0, ?_⟩
  · exact (trimLine_join (List.cons_ne_nil (lower f.dom) [qualify ".ns." (lower f.dom) (lower f.ns),
      ascii "hostmaster." ++ lower f.dom, decimal now, [], [], [], f.ttl, f.ts]) f.lo).mpr
      (padDot_last h)
  · have hcut := @split_join 58 (f.soaFields now) (List.cons_ne_nil _ _)
      fun field hfield => Clean.no_colon (soaFields_clean h line now field hfield)
    rw [hcut]
    exact List.append_nil _

/-- What the printed text makes. -/
theorem compile_signDot (env : Env) {raw printed : Bytes} {f : DotLine} {now : Nat} {soaThere : Bool}
    (h : padDot 6 (stripSpace raw) = some f) (line : 10 ∉ stripSpace raw)
    (run : signDot now soaThere raw = some printed) :
    compileFile env printed = compileNs env false f.field >>= fun servers =>
      (if soaThere then .ok [] else compileSoa env fun i => (f.soaFields now).getD i []) >>=
        fun soa => .ok (servers ++ soa) := by
  simp only [signDot, h, Option.map_some, Option.some.injEq] at run
  subst run
  have hwas : (10 : UInt8) ∉ 35 :: (ascii " Was: " ++ stripSpace raw) := by
    simp only [List.mem_cons, List.mem_append, not_or]
    exact ⟨by decide, by decide, line⟩
  have hjoined {kind : UInt8} (hkind : (10 : UInt8) ≠ kind) {fs : List Bytes}
      (clean : ∀ field ∈ fs, Clean field) : (10 : UInt8) ∉ kind :: join 58 fs := by
    intro hmem
    rcases List.mem_cons.mp hmem with hmem | hmem
    · exact hkind hmem
    · rcases mem_join hmem with hmem | ⟨field, hfield, hmem⟩
      · exact absurd hmem (by decide)
      · exact (clean field hfield _ hmem).2 rfl
  have htext : ascii "# Was: " ++ stripSpace raw ++ ascii "\n" ++ (f.nsLine ++
      if soaThere then [] else stampSerial (decimal now) f.soaLine ++ ascii "\n") =
      35 :: (ascii " Was: " ++ stripSpace raw) ++ 10 :: (38 :: join 58 f.fields ++ 10 ::
        if soaThere then [] else 90 :: join 58 (f.soaFields now) ++ 10 :: ([] ++ [10])) := by
    rw [nsLine_eq, stampSerial_soaLine h line now]
    cases soaThere <;> simp only [List.append_assoc, List.cons_append, List.nil_append] <;> rfl
  rw [htext, compileFile_append env hwas, compileLine_comment,
    compileFile_append env (hjoined (by decide) (padDot_clean h line)), compile_nsLine env h]
  cases soaThere with
  | true => cases compileNs env false f.field <;> rfl
  | false =>
    simp only [Bool.false_eq_true, if_false]
    rw [compileFile_append env (hjoined (by decide) (soaFields_clean h line now)),
      compile_soaFields env h line, compileFile_line env List.not_mem_nil]
    cases compileNs env false f.field with
    | error why => rfl
    | ok servers =>
      cases compileSoa env fun i => (f.soaFields now).getD i [] with
      | error why => rfl
      | ok soa => exact congrArg (fun x => Except.ok (servers ++ x)) (List.append_nil soa)

/-! ## The two SOA records -/

/-- The contact of a zone is `hostmaster` in the zone. -/
theorem fromdot_contact {s : Bytes} {contact : Name}
    (h : dnsDomainFromdot (ascii "hostmaster." ++ s) = some contact) :
    ∃ d, dnsDomainFromdot s = some d ∧ contact = ascii "hostmaster" :: d := by
  unfold dnsDomainFromdot at h
  have hgo : fromdotGo (unescape (ascii "hostmaster." ++ s)) [] [] =
      fromdotGo (unescape s) [] [ascii "hostmaster"] := by
    rw [unescape_append (by decide)]
    rfl
  rw [hgo] at h
  exact fromdotGo_front h

/-- A mark without a location is never that of a record with one. -/
theorem locationMark_inj {owner owner' : Name} {loc : Bytes}
    (h : locationMark owner loc = locationMark owner' [0, 0]) : loc = [0, 0] := by
  unfold locationMark at h
  by_contra hloc
  rw [if_neg hloc, if_pos rfl] at h
  revert h
  split <;> split <;> decide

section

variable {d d' m m' r r' : Name} {t t' : Nat} {ttd ttd' loc s s' mid min min' : Bytes}

/-- Two SOA records that differ in the serial number at most say the same otherwise. -/
theorem soa_of_same (ttdEight : ttd.length = 8) (ttdEight' : ttd'.length = 8) (serial : s.length = 4)
    (serial' : s'.length = 4) (midTwelve : mid.length = 12) (minFour : min.length = 4)
    (minFour' : min'.length = 4) (hm : ∀ l ∈ m, ValidLabel l) (hm' : ∀ l ∈ m', ValidLabel l)
    (hr : ∀ l ∈ r, ValidLabel l) (hr' : ∀ l ∈ r', ValidLabel l)
    (same : SameButSerial (rr d dnsTSoa t ttd loc (wire m ++ (wire r ++ (s ++ (mid ++ min)))))
      (rr d' dnsTSoa t' ttd' [0, 0] (wire m' ++ (wire r' ++ (s' ++ (mid ++ min')))))) :
    loc = [0, 0] ∧ be32 t = be32 t' ∧ ttd = ttd' ∧ m = m' ∧ r = r' ∧ min = min' := by
  obtain ⟨_, front, x, x', back, ha, hb, hx, hx', hback⟩ := same
  have hparts {owner : Name} {ttl : Nat} {time loc serial min y : Bytes} {mname rname : Name}
      (four : serial.length = 4) (four' : min.length = 4) (hy : y.length = 4)
      (h : (rr owner dnsTSoa ttl time loc
        (wire mname ++ (wire rname ++ (serial ++ (mid ++ min))))).data = front ++ (y ++ back)) :
      front = 0 :: 6 :: locationMark owner loc :: ((if loc = [0, 0] then [] else loc) ++
        (be32 ttl ++ (time ++ (wire mname ++ wire rname)))) ∧ back = mid ++ min := by
    have hdata := rr_data owner 0 6 ttl time loc (wire mname ++ (wire rname ++ (serial ++ (mid ++ min))))
    rw [show dnsTSoa = [0, 6] from rfl, hdata] at h
    have h : (0 :: 6 :: locationMark owner loc :: ((if loc = [0, 0] then [] else loc) ++
        (be32 ttl ++ (time ++ (wire mname ++ wire rname))))) ++ (serial ++ (mid ++ min)) =
        front ++ (y ++ back) := by
      rw [← h]
      simp only [List.cons_append, List.append_assoc]
    obtain ⟨hfront, hrest⟩ := List.append_inj' h (by
      simp only [List.length_append, four, four', hy, midTwelve, hback])
    exact ⟨hfront.symm, (List.append_inj' hrest (by
      simp only [List.length_append, four', midTwelve, hback])).2.symm⟩
  obtain ⟨hfront, hmin⟩ := hparts serial minFour hx ha
  obtain ⟨hfront', hmin'⟩ := hparts serial' minFour' hx' hb
  rw [hfront] at hfront'
  rw [hmin] at hmin'
  obtain ⟨hmark, hrest⟩ := List.cons.inj (List.cons.inj (List.cons.inj hfront').2).2
  have hloc := locationMark_inj hmark
  rw [hloc, if_pos rfl, List.nil_append, List.nil_append] at hrest
  obtain ⟨httl, hrest⟩ := List.append_inj hrest (by rw [be32_length, be32_length])
  obtain ⟨httd, hrest⟩ := List.append_inj hrest (by rw [ttdEight, ttdEight'])
  obtain ⟨hmname, hrest⟩ := wire_append_inj hm hm' hrest
  have hrname := (wire_append_inj hr hr' (congrArg (· ++ []) hrest)).1
  exact ⟨hloc, httl, httd, hmname, hrname, (List.append_inj hmin' rfl).2⟩

theorem same_of_soa (serial : s.length = 4) (serial' : s'.length = 4) (midTwelve : mid.length = 12)
    (minFour : min.length = 4) (ttl : be32 t = be32 t') :
    SameButSerial (rr d dnsTSoa t ttd loc (wire m ++ (wire r ++ (s ++ (mid ++ min)))))
      (rr d dnsTSoa t' ttd loc (wire m ++ (wire r ++ (s' ++ (mid ++ min))))) := by
  refine ⟨?_, 0 :: 6 :: locationMark d loc :: ((if loc = [0, 0] then [] else loc) ++
    (be32 t ++ (ttd ++ (wire m ++ wire r)))), s, s', mid ++ min, ?_, ?_, serial, serial', ?_⟩
  · unfold rr rrFinish
    cases wildcardBase d <;> rfl
  · rw [show dnsTSoa = [0, 6] from rfl, rr_data]
    simp only [List.cons_append, List.append_assoc]
  · rw [show dnsTSoa = [0, 6] from rfl, rr_data, ttl]
    simp only [List.cons_append, List.append_assoc]
  · rw [List.length_append, midTwelve, minFour]

end

/-! ## The claim about a line -/

/-- The numbers of a zone that names none: the serial number, and the rest. -/
theorem defaultsoa_eq (env : Env) : ∃ serial : Bytes, serial.length = 4 ∧
    env.defaultsoa = serial ++ ([0, 0, 64, 0, 0, 0, 8, 0, 0, 16, 0, 0] ++ be32 ttlNegative) := by
  refine ⟨if be32 env.mtime = [0, 0, 0, 0] then [0, 0, 0, 1] else be32 env.mtime, ?_, rfl⟩
  split <;> rfl

/-- The records of the servers, which the `&` line makes too. -/
def DotLine.servers (f : DotLine) (d1 d2 : Name) : List CdbRecord :=
  rr d1 dnsTNs (scanUlongOr ttlNs f.ttl) (ttdparse f.ts) (locparse f.lo) (wire d2) ::
    serverAddress d2 (scanUlongOr ttlNs f.ttl) (ttdparse f.ts) (locparse f.lo) f.ip

/-- The SOA record of the line. -/
def DotLine.soa (env : Env) (f : DotLine) (d1 d2 : Name) : CdbRecord :=
  rr d1 dnsTSoa (if scanUlongOr ttlNs f.ttl = 0 then 0 else ttlNegative) (ttdparse f.ts)
    (locparse f.lo) (wire d2 ++ (wire (ascii "hostmaster" :: d1) ++ env.defaultsoa))

theorem fromdot_none {s : Bytes} (h : dnsDomainFromdot s = none) : fromdot s = .error .nomem := by
  unfold fromdot
  rw [h]

theorem compileNs_of_reads (env : Env) {f : DotLine} {d1 d2 : Name}
    (zone : dnsDomainFromdot f.dom = some d1)
    (server : dnsDomainFromdot (qualify ".ns." f.dom f.ns) = some d2) (soa : Bool) :
    compileNs env soa f.field = .ok ((if soa then [f.soa env d1 d2] else []) ++ f.servers d1 d2) := by
  unfold compileNs
  refine bind_eq_ok.mpr ⟨d1, fromdot_eq_ok.mpr zone, ?_⟩
  exact bind_eq_ok.mpr ⟨d2, fromdot_eq_ok.mpr server, rfl⟩

theorem compileNs_of_not_reads (env : Env) {f : DotLine} (h : ¬ f.Reads) (soa : Bool) :
    compileNs env soa f.field = .error .nomem := by
  unfold compileNs
  cases hzone : dnsDomainFromdot f.dom with
  | none =>
    rw [show fromdot (f.field 0) = .error .nomem from fromdot_none hzone]
    rfl
  | some d1 =>
    have hserver : dnsDomainFromdot (qualify ".ns." f.dom f.ns) = none := by
      by_contra hserver
      exact h ⟨by rw [hzone]; exact Option.some_ne_none d1, hserver⟩
    rw [show fromdot (f.field 0) = .ok d1 from fromdot_eq_ok.mpr hzone]
    show (fromdot (qualify ".ns." f.dom f.ns) >>= _) = _
    rw [fromdot_none hserver]
    rfl

/-- The SOA record of the `Z` line. -/
def DotLine.zoneSoa (env : Env) (now : Nat) (f : DotLine) (d1 mname rname : Name) : CdbRecord :=
  rr d1 dnsTSoa (scanUlongOr ttlNegative f.ts) (ttdparse f.lo) [0, 0] (wire mname ++ (wire rname ++
    (be32 (scanUlongOr (unbe (env.defaultsoa.take 4)) (decimal now)) ++
      ([0, 0, 64, 0, 0, 0, 8, 0, 0, 16, 0, 0] ++ be32 (scanUlongOr ttlNegative f.ttl)))))

theorem compileSoa_soaFields (env : Env) (f : DotLine) (now : Nat) :
    compileSoa env (fun i => (f.soaFields now).getD i []) =
      fromdot (lower f.dom) >>= fun d1 =>
        fromdot (qualify ".ns." (lower f.dom) (lower f.ns)) >>= fun mname =>
          fromdot (ascii "hostmaster." ++ lower f.dom) >>= fun rname =>
            .ok [f.zoneSoa env now d1 mname rname] := by
  obtain ⟨serial, hfour, hdefault⟩ := defaultsoa_eq env
  have hdrop (n : Nat) : env.defaultsoa.drop (4 + n) =
      ([0, 0, 64, 0, 0, 0, 8, 0, 0, 16, 0, 0] ++ be32 ttlNegative).drop n := by
    rw [hdefault, ← hfour, List.drop_length_add_append]
  have hrefresh : be32 (unbe ((env.defaultsoa.drop (4 * 1)).take 4)) = [0, 0, 64, 0] := by
    rw [hdrop 0]
    decide
  have hretry : be32 (unbe ((env.defaultsoa.drop (4 * 2)).take 4)) = [0, 0, 8, 0] := by
    rw [hdrop 4]
    decide
  have hexpire : be32 (unbe ((env.defaultsoa.drop (4 * 3)).take 4)) = [0, 16, 0, 0] := by
    rw [hdrop 8]
    decide
  have hminimum : unbe ((env.defaultsoa.drop (4 * 4)).take 4) = ttlNegative := by
    rw [hdrop 12]
    decide
  have hnone (n : Nat) : scanUlongOr n [] = n := rfl
  unfold compileSoa DotLine.zoneSoa DotLine.soaFields
  simp only [List.getD_cons_zero, List.getD_cons_succ, hnone, hrefresh, hretry, hexpire, hminimum,
    Nat.mul_zero, List.drop_zero]
  rfl

/-- The ttl of the zone, when the minimum of the `Z` line comes out right. -/
theorem ttl_of_minimum {text : Bytes} (h : be32 (scanUlongOr ttlNegative text) = be32 ttlNegative) :
    (if scanUlongOr ttlNs text = 0 then 0 else ttlNegative) = ttlNegative := by
  rw [if_neg]
  intro hzero
  unfold scanUlongOr at h hzero
  split at hzero
  · cases hzero
  · rename_i hdigits
    rw [if_neg hdigits, hzero] at h
    exact absurd h (by decide)

/-- **The `Z` line makes the SOA record of the `.` line** when the fields are aligned, and only
then. -/
theorem zoneSoa_iff (env : Env) {f : DotLine} {d1 d2 : Name} (now : Nat)
    (zone : dnsDomainFromdot f.dom = some d1)
    (server : dnsDomainFromdot (qualify ".ns." f.dom f.ns) = some d2) :
    (∃ soa, compileSoa env (fun i => (f.soaFields now).getD i []) = .ok [soa] ∧
      SameButSerial (f.soa env d1 d2) soa) ↔ f.Aligned := by
  obtain ⟨serial, hfour, hdefault⟩ := defaultsoa_eq env
  rw [compileSoa_soaFields]
  unfold DotLine.soa
  rw [hdefault]
  have hvalid1 := dnsDomainFromdot_valid zone
  have hvalid2 := dnsDomainFromdot_valid server
  constructor
  · rintro ⟨soa, hrun, hsame⟩
    obtain ⟨d1', hd1, hrun⟩ := bind_eq_ok.mp hrun
    obtain ⟨mname, hmname, hrun⟩ := bind_eq_ok.mp hrun
    obtain ⟨rname, hrname, hrun⟩ := bind_eq_ok.mp hrun
    rw [fromdot_eq_ok] at hd1 hmname hrname
    cases hrun
    obtain ⟨d, hd, rfl⟩ := fromdot_contact hrname
    rw [hd1] at hd
    cases hd
    have hcontact : ∀ l ∈ ascii "hostmaster" :: d1, ValidLabel l := by
      intro l hl
      rcases List.mem_cons.mp hl with rfl | hl
      · exact ⟨by decide, by decide⟩
      · exact hvalid1.labels l hl
    obtain ⟨hloc, httl, httd, hm, hr, hmin⟩ := soa_of_same (ttdparse_length f.ts)
      (ttdparse_length f.lo) hfour (be32_length _) rfl (be32_length _) (be32_length _)
      hvalid2.labels (dnsDomainFromdot_valid hmname).labels hcontact
      (dnsDomainFromdot_valid hrname).labels hsame
    rw [ttl_of_minimum hmin.symm] at httl
    refine ⟨?_, ?_, ?_, hmin.symm, httl.symm, httd.symm, hloc⟩
    · rw [hd1, zone, (List.cons.inj hr).2]
    · rw [hmname, server, hm]
    · rw [hrname]
      exact Option.some_ne_none _
  · intro h
    have hd1 := h.zone.trans zone
    have hd2 := h.server.trans server
    obtain ⟨rname, hrname⟩ := Option.ne_none_iff_exists'.mp h.contact
    obtain ⟨d, hd, rfl⟩ := fromdot_contact hrname
    rw [hd1] at hd
    cases hd
    refine ⟨f.zoneSoa env now d1 d2 (ascii "hostmaster" :: d1), ?_, ?_⟩
    · refine bind_eq_ok.mpr ⟨d1, fromdot_eq_ok.mpr hd1, ?_⟩
      refine bind_eq_ok.mpr ⟨d2, fromdot_eq_ok.mpr hd2, ?_⟩
      exact bind_eq_ok.mpr ⟨_, fromdot_eq_ok.mpr hrname, rfl⟩
    · unfold DotLine.zoneSoa
      rw [ttl_of_minimum h.minimum, h.timestamp, h.location, h.minimum]
      exact same_of_soa hfour (be32_length _) rfl (be32_length _) h.ttl.symm

/-- For the first line of a zone it is the SOA record that counts. -/
theorem preserves_first (env : Env) {raw printed : Bytes} {f : DotLine} {now : Nat} {d1 d2 : Name}
    (dot : padDot 6 (stripSpace raw) = some f) (line : 10 ∉ stripSpace raw)
    (run : signDot now false raw = some printed) (zone : dnsDomainFromdot f.dom = some d1)
    (server : dnsDomainFromdot (qualify ".ns." f.dom f.ns) = some d2) :
    Preserves env (stripSpace raw) printed false ↔
      ∃ soa, compileSoa env (fun i => (f.soaFields now).getD i []) = .ok [soa] ∧
        SameButSerial (f.soa env d1 d2) soa := by
  unfold Preserves
  rw [compile_dot env dot, compile_signDot env dot line run, compileNs_of_reads env zone server,
    compileNs_of_reads env zone server]
  constructor
  · rintro ⟨soa, soa', servers, hrecords, hsame, hrun⟩
    obtain ⟨rfl, rfl⟩ := List.cons.inj hrecords
    obtain ⟨_, hservers, hrun⟩ := bind_eq_ok.mp hrun
    cases hservers
    obtain ⟨more, hmore, hrun⟩ := bind_eq_ok.mp hrun
    have hone := List.append_cancel_left (Except.ok.inj hrun)
    exact ⟨soa', hmore.trans (congrArg Except.ok hone), hsame⟩
  · rintro ⟨soa', hmore, hsame⟩
    refine ⟨_, soa', _, rfl, hsame, ?_⟩
    exact bind_eq_ok.mpr ⟨_, rfl, bind_eq_ok.mpr ⟨[soa'], hmore, rfl⟩⟩

/-- For a later line nothing can be lost. -/
theorem preserves_later (env : Env) {raw printed : Bytes} {f : DotLine} {now : Nat} {d1 d2 : Name}
    (dot : padDot 6 (stripSpace raw) = some f) (line : 10 ∉ stripSpace raw)
    (run : signDot now true raw = some printed) (zone : dnsDomainFromdot f.dom = some d1)
    (server : dnsDomainFromdot (qualify ".ns." f.dom f.ns) = some d2) :
    Preserves env (stripSpace raw) printed true := by
  unfold Preserves
  rw [compile_dot env dot, compile_signDot env dot line run, compileNs_of_reads env zone server,
    compileNs_of_reads env zone server]
  refine ⟨f.soa env d1 d2, f.soa env d1 d2, f.servers d1 d2, rfl, ?_, ?_⟩
  · obtain ⟨serial, hfour, hdefault⟩ := defaultsoa_eq env
    unfold DotLine.soa
    rw [hdefault]
    exact same_of_soa hfour hfour rfl (be32_length _) rfl
  · exact bind_eq_ok.mpr ⟨_, rfl, bind_eq_ok.mpr ⟨[], rfl, rfl⟩⟩

/-- **A `.` line is rewritten without a loss exactly when its ttl, timestamp and location are as good
as empty**, its names are in lower case and leave room for the contact. Where the zone has an SOA
record already, and where the line makes no records at all, nothing is lost either. -/
theorem signDot_preserves (env : Env) {raw printed : Bytes} {f : DotLine} {now : Nat} {soaThere : Bool}
    (dot : padDot 6 (stripSpace raw) = some f) (line : 10 ∉ stripSpace raw)
    (run : signDot now soaThere raw = some printed) :
    Preserves env (stripSpace raw) printed soaThere ↔ soaThere = true ∨ ¬ f.Reads ∨ f.Aligned := by
  by_cases hreads : f.Reads
  · obtain ⟨d1, hd1⟩ := Option.ne_none_iff_exists'.mp hreads.1
    obtain ⟨d2, hd2⟩ := Option.ne_none_iff_exists'.mp hreads.2
    cases soaThere with
    | true => exact iff_of_true (preserves_later env dot line run hd1 hd2) (.inl rfl)
    | false =>
      rw [preserves_first env dot line run hd1 hd2, zoneSoa_iff env now hd1 hd2]
      simp only [Bool.false_eq_true, false_or, not_true_eq_false, hreads]
  · unfold Preserves
    rw [compile_dot env dot, compile_signDot env dot line run, compileNs_of_not_reads env hreads,
      compileNs_of_not_reads env hreads]
    exact iff_of_true rfl (.inr (.inl hreads))

theorem signDot_preserves_plain : ∃ printed,
    signDot 1700000000 false (ascii ".z:127.0.0.1:a") = some printed ∧
      Preserves ⟨1, 0⟩ (ascii ".z:127.0.0.1:a") printed false := by
  refine ⟨_, rfl, ?_⟩
  refine (@signDot_preserves ⟨1, 0⟩ (ascii ".z:127.0.0.1:a") _
    ⟨ascii "z", ascii "127.0.0.1", ascii "a", [], [], []⟩ 1700000000 false rfl (by decide +kernel)
    rfl).mpr (.inr (.inr ?_))
  exact ⟨rfl, rfl, by decide +kernel, rfl, rfl, rfl, rfl⟩

/-- With a ttl the zone gets another minimum. -/
theorem signDot_shifts_ttl : ¬ ∀ (env : Env) (raw printed : Bytes) (f : DotLine) (now : Nat)
    (soaThere : Bool), padDot 6 (stripSpace raw) = some f → 10 ∉ stripSpace raw →
    signDot now soaThere raw = some printed → Preserves env (stripSpace raw) printed soaThere := by
  intro h
  have hline := h ⟨1, 0⟩ (ascii ".z:127.0.0.1:a:300") _
    ⟨ascii "z", ascii "127.0.0.1", ascii "a", ascii "300", [], []⟩ 1700000000 false rfl
    (by decide +kernel) rfl
  have hzone : dnsDomainFromdot (ascii "z") = some [ascii "z"] := rfl
  have hserver : dnsDomainFromdot (qualify ".ns." (ascii "z") (ascii "a")) =
      some [ascii "a", ascii "ns", ascii "z"] := rfl
  rw [preserves_first ⟨1, 0⟩ rfl (by decide +kernel) rfl hzone hserver,
    zoneSoa_iff ⟨1, 0⟩ 1700000000 hzone hserver] at hline
  exact absurd hline.minimum (by decide +kernel)

end TinyDnssec.Sign
