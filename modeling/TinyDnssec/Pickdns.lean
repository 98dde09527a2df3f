import TinyDnssec.Base.Blocks
import TinyDnssec.Base.HeapSort
import TinyDnssec.Base.Prefixes
import TinyDnssec.Data.Database
import TinyDnssec.Respond

/-!
# pickdns

`pickdns-data` collects the `+` lines of its data file, sorts them by location and name, and makes
one record out of each block of neighbours. `pickdns` looks for the record of a name under the
client's location, and under no location if there is none. It lowers its key in place, and three
octets behind the key as well, which a name of 253 octets or more has no room for.

Which of more than three addresses are sent is up to the words of `dns_random`; that the draw is a fair
one is not said.
-/

namespace TinyDnssec.Pickdns

open Octets Loop Data

/-! ## `pickdns-data.c` -/

/-- An address with its name, in lower case, and its location. -/
structure Address where
  name : Name
  ip : Bytes
  location : Bytes
  valid : Valid name
  lowered : lowerName name = name
  four : ip.length = 4
  two : location.length = 2
deriving DecidableEq

instance : Inhabited Address := ⟨⟨[], [0, 0, 0, 0], [0, 0], by decide, rfl, rfl, rfl⟩⟩

/-- `byte_diff`, of strings of one length; and what `case_diffb` does with folded ones. -/
def byteDiff (s t : Bytes) : Ordering :=
  if s < t then .lt else if t < s then .gt else .eq

def addressDiff (p q : Address) : Ordering :=
  match byteDiff p.location q.location with
  | .lt => .lt
  | .gt => .gt
  | .eq =>
    if dnsDomainLength p.name < dnsDomainLength q.name then .lt
    else if dnsDomainLength p.name > dnsDomainLength q.name then .gt
    else byteDiff (lower (wire p.name)) (lower (wire q.name))

/-- `address_sort`. On the way up it asks for `address_diff(&t,&z[p]) > 0`, which is the same as
`address_diff(&z[p],&t) < 0` (`addressDiff_spec`). -/
def addressSort (z : List Address) : List Address :=
  HeapSort.sort (fun p q => decide (addressDiff p q = .lt)) z

/-- The key of a record of addresses. -/
def plusKey (location : Bytes) (name : Name) : Bytes := 43 :: (location ++ wire name)

/-- The loop behind the sort: a record of each block of neighbours. -/
def grouped (x : List Address) : List CdbRecord :=
  (Blocks.blocks (fun p q => decide (addressDiff p q = .eq)) x).map fun (first, more) =>
    ⟨plusKey first.location first.name, (first :: more).flatMap Address.ip⟩

/-- `ipprefix_cat` -/
def ipprefixCat (s : Bytes) : Bytes := ipprefixNumbers s.length s

/-- The fields of a `+` line. -/
def plusAddress (f : Nat → Bytes) : Except Die Address :=
  match hname : dnsDomainFromdot (f 0) with
  | none => .error .nomem
  | some name =>
    match hip : ip4Scan (f 1) with
    | none => .error (.syntaxerror ": malformed IP address")
    | some ip =>
      .ok ⟨lowerName name, ip, locparse (f 2), (dnsDomainFromdot_valid hname).lower,
        lowerName_idem name, ip4Scan_length hip, rfl⟩

/-- The record of a `%` line. -/
def percentRecord (f : Nat → Bytes) : CdbRecord := ⟨37 :: ipprefixCat (cString (f 1)), locparse (f 0)⟩

/-- What has been written to the database and what has been collected. -/
structure Collected where
  cdb : List CdbRecord
  x : List Address

def readLine (line : Bytes) (c : Collected) : Except Die Collected :=
  match trimLine line with
  | [] => .ok c
  | 35 :: _ => .ok c                                     -- `#`
  | 45 :: _ => .ok c                                     -- `-`
  | 43 :: rest => do                                     -- `+`
    let t ← plusAddress (fields rest)
    .ok { c with x := c.x ++ [t] }
  | 37 :: rest =>                                        -- `%`
    .ok { c with cdb := c.cdb ++ [percentRecord (fields rest)] }
  | _ => .error (.syntaxerror ": unrecognized leading character")

def readLines : List Bytes → Collected → Except Die Collected
  | [], c => .ok c
  | line :: lines, c => readLine line c >>= readLines lines

/-- The database that a data file makes. -/
def pickdnsData (text : Bytes) : Except Die (List CdbRecord) := do
  let c ← readLines (split 10 text) ⟨[], []⟩
  .ok (c.cdb ++ grouped (addressSort c.x))

/-! ## `pickdns.c` -/

/-- `if (r && (cdb_datalen(&c) == 2))`, with the `cdb_read` into the key behind it. -/
def readLocation (key : Buffer 258) : Option Bytes → Except Halt (Buffer 258)
  | some loc => if loc.length = 2 then key.copy 1 loc else .ok key
  | none => .ok key

/-- The part of `doit` that looks for the addresses; the buffer holds what the last query left. -/
def findAddresses (records : List CdbRecord) (q : Name) (ip : Bytes) (key : Buffer 258) :
    Except Halt (Option Bytes) := do
  let qlen := dnsDomainLength q
  let key ← key.copy 0 [37]
  let key ← key.copy 1 ((ip.drop 12).take 4)
  let r := [5, 4, 3, 2].findSome? fun n => findData records (key.bytes.take n)
  let key ← key.copy 0 [43]
  let key ← key.copy 1 [0, 0]
  let key ← readLocation key r
  let key ← key.copy 3 (wire q)
  let key ← key.lowerb 3 (qlen + 3)
  match findData records (key.bytes.take (qlen + 3)) with
  | some data => .ok (some data)
  | none => do
    let key ← key.copy 1 [0, 0]
    .ok (findData records (key.bytes.take (qlen + 3)))

/-- `dns_sortip` on the first `n` addresses of `s`. -/
def dnsSortip (draw : Nat → Nat) : Nat → Bytes → Bytes
  | n + 2, s =>
    let i := draw (n + 2) % (n + 2)
    let tmp := (s.drop (4 * i)).take 4
    let s := patch s (4 * i) ((s.drop (4 * (n + 1))).take 4)
    dnsSortip draw (n + 1) (patch s (4 * (n + 1)) tmp)
  | _, s => s

/-- The addresses go into the answer from the last one to the first. -/
def addAddresses (q : Name) (data : Bytes) : Nat → Response → Build
  | dlen + 4, r => do
    let r ← rstart false q dnsTA 5 r
    let r ← addbytes ((data.drop dlen).take 4) r
    addAddresses q data dlen (rfinish .answer r)
  | _, r => .ok r

/-- What `doit` does with what it has found. -/
def reply (draw : Nat → Nat) (q : Name) (flaga : Bool) (r : Response) :
    Option Bytes → Except Halt Response
  | none => .ok (refuse r)
  | some data =>
    let data := data.take 512
    if flaga then
      match addAddresses q (dnsSortip draw (data.length / 4) data) (min data.length 12) r with
      | .error _ => .error .silent
      | .ok r => .ok r
    else .ok r

def flagMx (qtype : Bytes) : Bool := decide (qtype = dnsTMx) || decide (qtype = dnsTAny)

def doit (draw : Nat → Nat) (records : List CdbRecord) (q : Name) (qtype ip : Bytes)
    (key : Buffer 258) (r : Response) : Except Halt Response :=
  if dnsDomainLength q > 255 then .error .silent
  else if !flagA qtype && !flagMx qtype then .ok (refuse r)
  else
    match findAddresses records q ip key with
    | .error e => .error e
    | .ok found => reply draw q (flagA qtype) r found

/-! ## The sort and the blocks -/

/-- What the sort goes by. -/
def Address.rank (p : Address) : Bytes ×ₗ ℕ ×ₗ Bytes :=
  toLex (p.location, toLex (dnsDomainLength p.name, lower (wire p.name)))

theorem byteDiff_lt {s t : Bytes} : byteDiff s t = .lt ↔ s < t := by
  unfold byteDiff
  by_cases less : s < t
  · rw [if_pos less]
    exact iff_of_true rfl less
  · rw [if_neg less]
    split
    · exact iff_of_false (by decide) less
    · exact iff_of_false (by decide) less

theorem byteDiff_gt {s t : Bytes} : byteDiff s t = .gt ↔ t < s := by
  unfold byteDiff
  by_cases less : s < t
  · rw [if_pos less]
    exact iff_of_false (by decide) less.not_gt
  · rw [if_neg less]
    split
    · rename_i more
      exact iff_of_true rfl more
    · rename_i no
      exact iff_of_false (by decide) no

/-- `address_diff` compares the ranks. -/
theorem addressDiff_spec (p q : Address) :
    (addressDiff p q = .lt ↔ p.rank < q.rank) ∧ (addressDiff p q = .gt ↔ q.rank < p.rank) := by
  unfold addressDiff Address.rank
  simp only [Prod.Lex.toLex_lt_toLex]
  rcases lt_trichotomy p.location q.location with less | same | more
  · rw [byteDiff_lt.mpr less]
    simp [less, less.not_gt, less.ne']
  · have level : byteDiff p.location q.location = .eq := by
      rw [same]
      unfold byteDiff
      rw [if_neg (lt_irrefl _), if_neg (lt_irrefl _)]
    rw [level, same]
    rcases lt_trichotomy (dnsDomainLength p.name) (dnsDomainLength q.name) with less | even | more
    · simp [less, less.not_gt, less.ne']
    · simp [even, byteDiff_lt, byteDiff_gt]
    · simp [more, more.not_gt, more.ne']
  · rw [byteDiff_gt.mpr more]
    simp [more, more.not_gt, more.ne']

theorem addressDiff_eq {p q : Address} : addressDiff p q = .eq ↔ p.rank = q.rank := by
  obtain ⟨less, more⟩ := addressDiff_spec p q
  rcases lt_trichotomy p.rank q.rank with h | h | h
  · exact iff_of_false (fun same => by rw [less.mpr h] at same; cases same) h.ne
  · refine iff_of_true ?_ h
    cases hdiff : addressDiff p q with
    | lt => exact absurd (less.mp hdiff) (h ▸ lt_irrefl _)
    | gt => exact absurd (more.mp hdiff) (h ▸ lt_irrefl _)
    | eq => rfl
  · exact iff_of_false (fun same => by rw [more.mpr h] at same; cases same) h.ne'

def Address.key (p : Address) : Bytes := plusKey p.location p.name

theorem plusKey_inj {loc loc' : Bytes} {n n' : Name} (two : loc.length = loc'.length)
    (hn : Valid n) (hn' : Valid n') : plusKey loc n = plusKey loc' n' ↔ loc = loc' ∧ n = n' := by
  unfold plusKey
  rw [List.cons_inj_right]
  constructor
  · intro same
    obtain ⟨located, named⟩ := List.append_inj same two
    exact ⟨located, (wire_inj hn hn').mp named⟩
  · rintro ⟨rfl, rfl⟩
    rfl

/-- The sort leaves no two addresses apart that have one key. -/
theorem rank_eq_iff {p q : Address} : p.rank = q.rank ↔ p.key = q.key := by
  unfold Address.rank Address.key dnsDomainLength
  rw [plusKey_inj (p.two.trans q.two.symm) p.valid q.valid, lower_wire p.valid.labels, p.lowered,
    lower_wire q.valid.labels, q.lowered, toLex_inj, Prod.mk.injEq, toLex_inj, Prod.mk.injEq,
    wire_inj p.valid q.valid]
  constructor
  · rintro ⟨located, -, named⟩
    exact ⟨located, named⟩
  · rintro ⟨located, named⟩
    exact ⟨located, by rw [named], named⟩

theorem sort_lt_iff (p q : Address) :
    decide (addressDiff p q = .lt) = true ↔ p.rank < q.rank := by
  rw [decide_eq_true_eq]
  exact (addressDiff_spec p q).1

theorem addressSort_perm (z : List Address) : (addressSort z).Perm z :=
  HeapSort.sort_perm sort_lt_iff z

/-- **The records of the sorted addresses**: for each key one, with the addresses of that key. -/
theorem grouped_filter (z : List Address) {a : Address} (ha : a ∈ z) :
    ∃ ips : List Bytes, ips.Perm ((z.filter fun b => b.key = a.key).map Address.ip) ∧
      (grouped (addressSort z)).filter (fun record => record.key = a.key) =
        [⟨a.key, ips.flatten⟩] := by
  have same_iff (p q : Address) : decide (addressDiff p q = .eq) = true ↔ p.rank = q.rank := by
    rw [decide_eq_true_eq]
    exact addressDiff_eq
  have sorted : (addressSort z).Pairwise fun p q => p.rank ≤ q.rank :=
    HeapSort.sort_pairwise sort_lt_iff z
  have perm := addressSort_perm z
  obtain ⟨x, more, only, all⟩ :=
    Blocks.blocks_filter same_iff sorted (perm.mem_iff.mpr ha)
  have keyed (b : Address) : b.rank = a.rank ↔ b.key = a.key := rank_eq_iff
  simp only [keyed] at only all
  refine ⟨(x :: more).map Address.ip, ?_, ?_⟩
  · rw [all]
    exact (perm.filter _).map Address.ip
  · have there : x.key = a.key := by
      have inside : x ∈ (addressSort z).filter fun b => b.key = a.key :=
        all ▸ List.mem_cons_self
      exact of_decide_eq_true (List.mem_filter.mp inside).2
    unfold grouped
    rw [List.filter_map]
    change List.map _ ((Blocks.blocks _ (addressSort z)).filter fun b => decide (b.1.key = a.key)) = _
    rw [only, ← there]
    rfl

/-! ## The lines -/

/-- The address of a `+` line. -/
def plusLine (line : Bytes) : Option Address :=
  match trimLine line with
  | 43 :: rest => (plusAddress (fields rest)).toOption
  | _ => none

/-- The record of a `%` line. -/
def percentLine (line : Bytes) : Option CdbRecord :=
  match trimLine line with
  | 37 :: rest => some (percentRecord (fields rest))
  | _ => none

/-- The addresses of the `+` lines of a data file, in their order. -/
def plusLines (text : Bytes) : List Address := (split 10 text).filterMap plusLine

def percentLines (text : Bytes) : List CdbRecord := (split 10 text).filterMap percentLine

/-- What one line adds. -/
theorem readLine_adds {line : Bytes} {c c' : Collected} (h : readLine line c = .ok c') :
    c'.cdb = c.cdb ++ (percentLine line).toList ∧ c'.x = c.x ++ (plusLine line).toList := by
  unfold readLine at h
  unfold percentLine plusLine
  split at h
  · rename_i empty
    cases h
    rw [empty]
    exact ⟨(List.append_nil _).symm, (List.append_nil _).symm⟩
  · rename_i comment
    cases h
    rw [comment]
    exact ⟨(List.append_nil _).symm, (List.append_nil _).symm⟩
  · rename_i ignored
    cases h
    rw [ignored]
    exact ⟨(List.append_nil _).symm, (List.append_nil _).symm⟩
  · rename_i rest plus
    obtain ⟨t, ht, h⟩ := bind_eq_ok.mp h
    cases h
    rw [plus]
    refine ⟨(List.append_nil _).symm, ?_⟩
    change c.x ++ [t] = c.x ++ (plusAddress (fields rest)).toOption.toList
    rw [ht]
    rfl
  · rename_i rest percent
    cases h
    rw [percent]
    exact ⟨rfl, (List.append_nil _).symm⟩
  · cases h

theorem readLines_adds {lines : List Bytes} {c c' : Collected} (h : readLines lines c = .ok c') :
    c'.cdb = c.cdb ++ lines.filterMap percentLine ∧ c'.x = c.x ++ lines.filterMap plusLine := by
  induction lines generalizing c with
  | nil =>
    cases h
    exact ⟨(List.append_nil _).symm, (List.append_nil _).symm⟩
  | cons line lines ih =>
    obtain ⟨c₁, first, rest⟩ := bind_eq_ok.mp h
    obtain ⟨cdb, x⟩ := readLine_adds first
    obtain ⟨cdb', x'⟩ := ih rest
    have joined {α : Type} (f : Bytes → Option α) :
        (line :: lines).filterMap f = (f line).toList ++ lines.filterMap f := by
      cases hf : f line with
      | none => rw [List.filterMap_cons_none hf, Option.toList_none, List.nil_append]
      | some y => rw [List.filterMap_cons_some hf, Option.toList_some, List.singleton_append]
    rw [cdb', x', cdb, x, joined, joined, List.append_assoc, List.append_assoc]
    exact ⟨rfl, rfl⟩

/-- **The database of a data file**: the `%` lines, and the records of the sorted `+` lines. -/
theorem pickdnsData_spec {text : Bytes} {records : List CdbRecord}
    (h : pickdnsData text = .ok records) :
    records = percentLines text ++ grouped (addressSort (plusLines text)) := by
  obtain ⟨c, read, h⟩ := bind_eq_ok.mp h
  cases h
  obtain ⟨cdb, x⟩ := readLines_adds read
  rw [cdb, x]
  rfl

/-- For each location and name of the `+` lines there is one record, with the addresses of all these
lines; and there are no others. -/
structure Groups (text : Bytes) (records : List CdbRecord) : Prop where
  each : ∀ a ∈ plusLines text, ∃ ips : List Bytes,
    ips.Perm (((plusLines text).filter fun b =>
      b.location = a.location ∧ b.name = a.name).map Address.ip) ∧
      records.filter (fun record => record.key = plusKey a.location a.name) =
        [⟨plusKey a.location a.name, ips.flatten⟩]
  only : ∀ record ∈ records, record.key.head? = some 43 →
    ∃ a ∈ plusLines text, record.key = plusKey a.location a.name

theorem percentLines_head {text : Bytes} {record : CdbRecord} (h : record ∈ percentLines text) :
    record.key.head? = some 37 := by
  obtain ⟨line, -, made⟩ := List.mem_filterMap.mp h
  unfold percentLine at made
  split at made
  · cases made
    rfl
  · cases made

theorem groups_of_ok {text : Bytes} {records : List CdbRecord}
    (h : pickdnsData text = .ok records) : Groups text records := by
  rw [pickdnsData_spec h]
  constructor
  · intro a ha
    obtain ⟨ips, perm, found⟩ := grouped_filter (plusLines text) ha
    refine ⟨ips, ?_, ?_⟩
    · have keyed (b : Address) : b.key = a.key ↔ b.location = a.location ∧ b.name = a.name :=
        plusKey_inj (b.two.trans a.two.symm) b.valid a.valid
      simp only [keyed] at perm
      exact perm
    · have none : (percentLines text).filter (fun record => decide (record.key = a.key)) = [] := by
        apply List.filter_eq_nil_iff.mpr
        intro record inside
        rw [decide_eq_true_eq]
        intro same
        have head := percentLines_head inside
        rw [same] at head
        cases head
      rw [List.filter_append]
      change (percentLines text).filter (fun record => decide (record.key = a.key)) ++
        (grouped (addressSort (plusLines text))).filter (fun record => decide (record.key = a.key)) = _
      rw [none, found]
      rfl
  · intro record inside head
    rcases List.mem_append.mp inside with percent | plus
    · rw [percentLines_head percent] at head
      cases head
    · obtain ⟨⟨a, more⟩, block, rfl⟩ := List.mem_map.mp plus
      exact ⟨a, (addressSort_perm _).mem_iff.mp (Blocks.mem_of_mem_blocks block), rfl⟩

/-! ## The key -/

/-- The location that `doit` puts into its key. -/
def location (records : List CdbRecord) (ip : Bytes) : Bytes :=
  match [4, 3, 2, 1].findSome? fun n => findData records (37 :: (ip.drop 12).take n) with
  | some loc => if loc.length = 2 then loc else [0, 0]
  | none => [0, 0]

theorem location_length (records : List CdbRecord) (ip : Bytes) :
    (location records ip).length = 2 := by
  unfold location
  split
  · split
    · rename_i two
      exact two
    · rfl
  · rfl

variable {records : List CdbRecord} {q : Name} {ip : Bytes}

/-- Up to the point where the key is lowered, all is inside of the buffer. -/
theorem findAddresses_built (whole : ip.length = 16) (fits : dnsDomainLength q ≤ 255)
    (key : Buffer 258) :
    ∃ (k : Buffer 258) (v : Bytes), k.bytes = 43 :: (location records ip ++ (wire q ++ v)) ∧
      findAddresses records q ip key = (do
        let key ← k.lowerb 3 (dnsDomainLength q + 3)
        match findData records (key.bytes.take (dnsDomainLength q + 3)) with
        | some data => .ok (some data)
        | none => do
          let key ← key.copy 1 [0, 0]
          .ok (findData records (key.bytes.take (dnsDomainLength q + 3)))) := by
  have four : (ip.drop 12).length = 4 := by
    rw [List.length_drop, whole]
  have all : (ip.drop 12).take 4 = ip.drop 12 := List.take_of_length_le four.le
  obtain ⟨k₁, h₁, e₁⟩ := key.copy_ok 0 [37] (by decide)
  obtain ⟨k₂, h₂, e₂⟩ := k₁.copy_ok 1 (ip.drop 12) (by rw [four]; decide)
  obtain ⟨k₃, h₃, e₃⟩ := k₂.copy_ok 0 [43] (by decide)
  obtain ⟨k₄, h₄, e₄⟩ := k₃.copy_ok 1 [0, 0] (by decide)
  rw [patch_zero, List.singleton_append] at e₁
  rw [e₁, patch_cons, patch_zero] at e₂
  obtain ⟨t, e₂⟩ : ∃ t, k₂.bytes = 37 :: (ip.drop 12 ++ t) := ⟨_, e₂⟩
  rw [e₂, patch_zero] at e₃
  rw [e₃] at e₄
  obtain ⟨u, e₄⟩ : ∃ u, k₄.bytes = 43 :: ([0, 0] ++ u) := ⟨_, e₄.trans (patch_cons ..)⟩
  -- the location is looked for while the address stands in the key
  have looked : ([5, 4, 3, 2].findSome? fun n => findData records (k₂.bytes.take n)) =
      [4, 3, 2, 1].findSome? fun n => findData records (37 :: (ip.drop 12).take n) := by
    have short {n : Nat} (h : n ≤ 4) :
        k₂.bytes.take (n + 1) = 37 :: (ip.drop 12).take n := by
      rw [e₂, List.take_succ_cons, List.take_append_of_le_length (by omega)]
    simp only [List.findSome?_cons, List.findSome?_nil, short (Nat.le_refl 4),
      short (show 3 ≤ 4 by decide), short (show 2 ≤ 4 by decide), short (show 1 ≤ 4 by decide)]
  have located : ∃ k₅ : Buffer 258, k₅.bytes = 43 :: (location records ip ++ u) ∧
      readLocation k₄ ([4, 3, 2, 1].findSome? fun n =>
        findData records (37 :: (ip.drop 12).take n)) = .ok k₅ := by
    unfold location readLocation
    split
    · rename_i loc _
      by_cases two : loc.length = 2
      · obtain ⟨k₅, h₅, e₅⟩ := k₄.copy_ok 1 loc (by rw [two]; decide)
        rw [e₄, patch_cons, patch_zero, two] at e₅
        rw [if_pos two, if_pos two]
        exact ⟨k₅, e₅, h₅⟩
      · rw [if_neg two, if_neg two]
        exact ⟨k₄, e₄, rfl⟩
    · exact ⟨k₄, e₄, rfl⟩
  obtain ⟨k₅, e₅, h₅⟩ := located
  have room : 3 + (wire q).length ≤ 258 := by
    change 3 + dnsDomainLength q ≤ 258
    omega
  obtain ⟨k₆, h₆, e₆⟩ := k₅.copy_ok _ _ room
  have two := location_length records ip
  rw [e₅, patch_cons, ← two, patch_append] at e₆
  refine ⟨k₆, _, e₆, ?_⟩
  unfold findAddresses
  simp only [all, h₁, h₂, h₃, h₄, looked, h₅, h₆, bind, Except.bind]

/-- What is found: the record of the name in lower case under the location, or else under none. -/
def foundUnder (records : List CdbRecord) (loc : Bytes) (q : Name) : Option Bytes :=
  match findData records (plusKey loc (lowerName q)) with
  | some data => some data
  | none => findData records (plusKey [0, 0] (lowerName q))

/-- With room for the three octets behind the key, the record is found. -/
theorem findAddresses_inside (whole : ip.length = 16) (valid : Valid q)
    (room : dnsDomainLength q ≤ 252) (key : Buffer 258) :
    findAddresses records q ip key = .ok (foundUnder records (location records ip) q) := by
  obtain ⟨k, v, bytes, built⟩ := @findAddresses_built records q ip whole (by omega) key
  have two := location_length records ip
  obtain ⟨k₁, h₁, e₁⟩ := k.lowerb_ok 3 (dnsDomainLength q + 3) (by omega)
  -- the key is lowered, and so is something behind it
  obtain ⟨v', lowered⟩ : ∃ v', k₁.bytes =
      43 :: (location records ip ++ (wire (lowerName q) ++ v')) := by
    have behind : k.bytes.drop 3 = wire q ++ v := by
      rw [bytes, List.drop_succ_cons, ← two, List.drop_left]
    have cut : (wire q ++ v).take (dnsDomainLength q + 3) = wire q ++ v.take 3 :=
      List.take_length_add_append 3
    rw [behind, cut, lower_append, lower_wire valid.labels, bytes, patch_cons, ← two, patch_append]
      at e₁
    rw [e₁, List.append_assoc]
    exact ⟨_, rfl⟩
  have size : (wire (lowerName q)).length = dnsDomainLength q := by
    rw [← lower_wire valid.labels, lower_length]
    rfl
  have keyed {loc : Bytes} (two : loc.length = 2) :
      (43 :: (loc ++ (wire (lowerName q) ++ v'))).take (dnsDomainLength q + 3) =
        plusKey loc (lowerName q) := by
    have long : dnsDomainLength q + 2 = (loc ++ wire (lowerName q)).length := by
      rw [List.length_append, size, two, Nat.add_comm]
    rw [List.take_succ_cons, ← List.append_assoc, long, List.take_left]
    rfl
  obtain ⟨k₂, h₂, e₂⟩ := k₁.copy_ok 1 [0, 0] (by decide)
  rw [lowered, patch_cons, patch_zero] at e₂
  have unlocated : k₂.bytes.take (dnsDomainLength q + 3) = plusKey [0, 0] (lowerName q) := by
    have zero : ([0, 0] : Bytes).length = (location records ip).length := two.symm
    rw [e₂, zero, List.drop_left]
    exact keyed rfl
  unfold foundUnder
  simp only [built, h₁, h₂, lowered, keyed two, unlocated, bind, Except.bind]
  split
  · rfl
  · rfl

/-- Without, an octet behind the buffer is touched. -/
theorem findAddresses_outside (whole : ip.length = 16) (fits : dnsDomainLength q ≤ 255)
    (past : 252 < dnsDomainLength q) (key : Buffer 258) :
    findAddresses records q ip key = .error .outside := by
  obtain ⟨k, v, -, built⟩ := @findAddresses_built records q ip whole fits key
  rw [built, k.lowerb_outside (by omega)]
  rfl

/-! ## The records that are found -/

/-- The location of a client: that of the longest of its prefixes, of one to four octets, that a `%`
line has. -/
def clientLocation (text ip : Bytes) : Bytes :=
  match [4, 3, 2, 1].findSome? fun n =>
    (percentLines text).find? fun record => decide (record.key = 37 :: (ip.drop 12).take n) with
  | some record => record.data
  | none => [0, 0]

theorem percentLines_two {text : Bytes} {record : CdbRecord} (h : record ∈ percentLines text) :
    record.data.length = 2 := by
  obtain ⟨line, -, made⟩ := List.mem_filterMap.mp h
  unfold percentLine at made
  split at made
  · cases made
    rfl
  · cases made

theorem grouped_head {x : List Address} {record : CdbRecord} (h : record ∈ grouped x) :
    record.key.head? = some 43 := by
  obtain ⟨⟨a, more⟩, -, rfl⟩ := List.mem_map.mp h
  rfl

theorem location_eq {text : Bytes} (h : pickdnsData text = .ok records) (ip : Bytes) :
    location records ip = clientLocation text ip := by
  have percent (p : Bytes) : findData records (37 :: p) =
      ((percentLines text).find? fun record => decide (record.key = 37 :: p)).map
        CdbRecord.data := by
    have none : ((grouped (addressSort (plusLines text))).find? fun record =>
        decide (record.key = 37 :: p)) = none := by
      apply List.find?_eq_none.mpr
      intro record inside
      rw [decide_eq_true_eq]
      intro same
      have head := grouped_head inside
      rw [same] at head
      cases head
    unfold findData
    rw [pickdnsData_spec h, List.find?_append, none, Option.or_none]
  have mapped : ([4, 3, 2, 1].findSome? fun n => findData records (37 :: (ip.drop 12).take n)) =
      ([4, 3, 2, 1].findSome? fun n => (percentLines text).find? fun record =>
        decide (record.key = 37 :: (ip.drop 12).take n)).map CdbRecord.data := by
    rw [List.map_findSome?]
    exact congrArg (fun f => List.findSome? f [4, 3, 2, 1]) (funext fun n => percent _)
  unfold location clientLocation
  simp only [mapped]
  cases found : [4, 3, 2, 1].findSome? fun n => (percentLines text).find? fun record =>
      decide (record.key = 37 :: (ip.drop 12).take n) with
  | none => rfl
  | some record =>
    obtain ⟨n, -, there⟩ := List.exists_of_findSome?_eq_some found
    exact if_pos (percentLines_two (List.mem_of_find?_eq_some there))

/-- `doit` looks for the record of the name in lower case under the client's location, and then
under none; it answers with what it finds. Types it does not serve it refuses. -/
def LooksUp (draw : Nat → Nat) (text : Bytes) (records : List CdbRecord) (q : Name)
    (qtype ip : Bytes) (key : Buffer 258) (r : Response) : Prop :=
  doit draw records q qtype ip key r =
    if flagA qtype || flagMx qtype then
      reply draw q (flagA qtype) r (foundUnder records (clientLocation text ip) q)
    else .ok (refuse r)

/-- `reply` stays inside of the key buffer, which it does not touch. -/
theorem reply_inside (draw : Nat → Nat) (flaga : Bool) (r : Response) (found : Option Bytes) :
    reply draw q flaga r found ≠ .error .outside := by
  unfold reply
  intro outside
  split at outside
  · cases outside
  · split at outside
    · dsimp only at outside
      split at outside
      · cases outside
      · cases outside
    · cases outside

/-- **pickdns**: the records of a data file group its addresses, and `doit` looks them up, unless
the name is longer than 252 octets. -/
theorem looksUp_iff {text : Bytes} (h : pickdnsData text = .ok records) (valid : Valid q)
    (whole : ip.length = 16) (draw : Nat → Nat) (qtype : Bytes) (key : Buffer 258) (r : Response) :
    Groups text records ∧ LooksUp draw text records q qtype ip key r ↔
      dnsDomainLength q ≤ 252 ∨ ¬ (flagA qtype || flagMx qtype) = true := by
  have fits : dnsDomainLength q ≤ 255 := by
    unfold dnsDomainLength
    rw [wire_length]
    exact valid.short
  rw [and_iff_right (groups_of_ok h)]
  unfold LooksUp doit
  rw [if_neg (by omega)]
  by_cases served : (flagA qtype || flagMx qtype) = true
  · have unrefused : ¬ (!flagA qtype && !flagMx qtype) = true := by
      rw [← Bool.not_or, served]
      decide
    rw [if_neg unrefused, if_pos served, or_iff_left (not_not_intro served)]
    rcases Nat.lt_or_ge 252 (dnsDomainLength q) with past | room
    · refine iff_of_false (fun same => ?_) (by omega)
      rw [findAddresses_outside whole fits past] at same
      exact reply_inside draw (flagA qtype) r _ same.symm
    · refine iff_of_true ?_ room
      rw [findAddresses_inside whole valid room, location_eq h]
  · refine iff_of_true ?_ (.inr served)
    have refused : (!flagA qtype && !flagMx qtype) = true := by
      rw [← Bool.not_or, Bool.not_eq_true'] 
      exact Bool.eq_false_iff.mpr served
    rw [if_pos refused, if_neg served]

/-- Two addresses of one name, spelled differently, and one of the same name elsewhere. -/
def threeAddresses : Bytes := ascii "%in:10\n+a.b:1.2.3.4\n+a.b:1.2.3.5:in\n+A.b:1.2.3.6:in"

def threeRecords : List CdbRecord :=
  [⟨[37, 10], ascii "in"⟩, ⟨plusKey [0, 0] [ascii "a", ascii "b"], [1, 2, 3, 4]⟩,
    ⟨plusKey (ascii "in") [ascii "a", ascii "b"], [1, 2, 3, 5, 1, 2, 3, 6]⟩]

theorem pickdnsData_threeAddresses : pickdnsData threeAddresses = .ok threeRecords := by
  decide +kernel

/-- A client in the location `in`, and a key buffer that nothing has been written to. -/
def client : Bytes := v4mappedPrefix ++ [10, 0, 0, 1]

def blankKey : Buffer 258 := ⟨.replicate 258 0, List.length_replicate⟩

theorem looksUp_threeAddresses :
    Groups threeAddresses threeRecords ∧
      LooksUp id threeAddresses threeRecords [ascii "a", ascii "B"] dnsTA client blankKey
        ⟨[], [], 0, 0⟩ :=
  (looksUp_iff pickdnsData_threeAddresses (by decide +kernel) (by decide +kernel) id dnsTA blankKey
    ⟨[], [], 0, 0⟩).mpr (.inl (by decide +kernel))

/-- A name of 253 octets. -/
def longName : Name := [.replicate 63 97, .replicate 63 97, .replicate 63 97, .replicate 59 97]

theorem looksUp_longName :
    ¬ ∀ (text : Bytes) (records : List CdbRecord) (q : Name) (qtype ip : Bytes) (draw : Nat → Nat)
      (key : Buffer 258) (r : Response), pickdnsData text = .ok records → Valid q →
      ip.length = 16 →
      Groups text records ∧ LooksUp draw text records q qtype ip key r := by
  intro all
  have valid : Valid longName := by decide +kernel
  obtain ⟨-, looks⟩ := all threeAddresses _ longName dnsTA client id blankKey ⟨[], [], 0, 0⟩
    pickdnsData_threeAddresses valid (by decide +kernel)
  unfold LooksUp at looks
  have halted : doit id threeRecords longName dnsTA client blankKey ⟨[], [], 0, 0⟩ =
      .error .outside := by
    unfold doit
    rw [if_neg (by decide +kernel), if_neg (by decide +kernel),
      findAddresses_outside (by decide +kernel) (by decide +kernel) (by decide +kernel)]
  rw [halted, if_pos (by decide +kernel)] at looks
  exact reply_inside _ _ _ _ looks.symm

end TinyDnssec.Pickdns
