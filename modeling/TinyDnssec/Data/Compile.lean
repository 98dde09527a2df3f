import TinyDnssec.Data.Scan
import TinyDnssec.Dns

/-!
# tinydns-data

The line compiler of `tinydns-data.c`: one line of the data file to the records it adds to the
database. A record is what `cdb_make_add` is given, a key and its data, and the database is the
list of them in the order they were added.

A line is cut at its colons into fields, and a missing field is empty. Everything a kind of line
reads, its defaults and the order in which a field is defaulted, parsed and used, is the source's.
Where the C code looks one octet past a field, at what an earlier line left in the buffer, the
octet is `Env.stale`.

How `cdb_make` lays the records out in the file is not modelled.
-/

namespace TinyDnssec.Data

open Octets

/-- How the program ends early. -/
inductive Die where
  | nomem
  | syntaxerror (why : String)
deriving DecidableEq

/-- What `cdb_make_add` is given. -/
structure CdbRecord where
  key : Bytes
  data : Bytes
deriving DecidableEq, Repr

/-- What a line's meaning depends on besides its text: the modification time of the file, and the
octet found behind the end of a field. -/
structure Env where
  mtime : Nat
  stale : UInt8

def ttlNs : Nat := 259200
def ttlPositive : Nat := 86400
def ttlNegative : Nat := 2560

/-- `defaultsoa`: serial, refresh, retry, expire and minimum of a zone that names none. -/
def Env.defaultsoa (env : Env) : Bytes :=
  (if be32 env.mtime = [0, 0, 0, 0] then [0, 0, 0, 1] else be32 env.mtime) ++
    [0, 0, 64, 0, 0, 0, 8, 0, 0, 16, 0, 0, 0, 0, 10, 0]

/-! ## Fields -/

def ttdDigit (ch : UInt8) : UInt8 :=
  if 48 ≤ ch ∧ ch ≤ 57 then ch - 48 else if 97 ≤ ch ∧ ch ≤ 102 then ch - 87 else 0

/-- The value of the digit at a place of a timestamp; a missing digit is 0. -/
def ttdDigitAt (sa : Bytes) (i : Nat) : UInt8 := (sa[i]?.map ttdDigit).getD 0

/-- The eight octets of a hexadecimal timestamp. -/
def ttdparse (sa : Bytes) : Bytes :=
  (List.range 8).map fun i => ttdDigitAt sa (2 * i) * 16 + ttdDigitAt sa (2 * i + 1)

def locparse (sa : Bytes) : Bytes := [sa.getD 0 0, sa.getD 1 0]

/-- The octets a text with backslash escapes stands for. -/
def txtparse (sa : Bytes) : Bytes := (unescape sa).map Prod.snd

/-- What C reads as a string: up to the first zero. -/
def cString (s : Bytes) : Bytes := s.takeWhile (· != 0)

/-- The numbers of an address prefix, between any dots; each takes at least one octet of text. -/
def ipprefixNumbers : Nat → Bytes → Bytes
  | 0, _ => []
  | _, [] => []
  | rounds + 1, c :: s =>
    if c = 46 then ipprefixNumbers rounds s
    else if digitRun (c :: s) = [] then []
    else UInt8.ofNat (scanUlong (c :: s)) ::
      ipprefixNumbers rounds ((c :: s).drop (digitRun (c :: s)).length)

def ipprefixCat : Bytes → Bytes
  | 115 :: s => 115 :: cString s
  | 102 :: s => 102 :: ipprefixNumbers s.length s
  | s => 102 :: ipprefixNumbers s.length s

/-- A digit of a fingerprint, as `hexparse` reads it: any octet it does not know keeps its value. -/
def hexDigit (ch : UInt8) : UInt8 :=
  let ch := if 48 ≤ ch ∧ ch ≤ 57 then ch - 48 else ch
  if 97 ≤ ch ∧ ch ≤ 102 then ch - 87 else ch

/-- The octets of a fingerprint; with an odd number of digits the last is paired with what stands
behind the field. -/
def hexparse (stale : UInt8) : Bytes → Bytes
  | [] => []
  | [ch] => [hexDigit ch * 16 + hexDigit stale]
  | ch :: lo :: s => (hexDigit ch * 16 + hexDigit lo) :: hexparse stale s

def fromdot (s : Bytes) : Except Die Name :=
  match dnsDomainFromdot s with
  | none => .error .nomem
  | some d => .ok d

/-- A server name without a dot is completed with the kind of server and the domain. -/
def qualify (kind : String) (fqdn x : Bytes) : Bytes :=
  if 46 ∈ x then x else x ++ ascii kind ++ fqdn

/-! ## Records -/

/-- `rr_start`: type, location mark, ttl and timestamp. -/
def rrStart (type : Bytes) (ttl : Nat) (ttd loc : Bytes) : Bytes :=
  type ++ ((if loc = [0, 0] then [61] else 62 :: loc) ++ (be32 ttl ++ ttd))

/-- The labels behind a leading `*`, if the owner is a wildcard. -/
def wildcardBase : Name → Option Name
  | [42] :: owner => some owner
  | _ => none

/-- `rr_finish`: a leading `*` moves from the owner into the location mark. -/
def rrFinish (owner : Name) (toLower : Bool) (result : Bytes) : CdbRecord :=
  let key (owner : Name) := if toLower then lower (wire owner) else wire owner
  match wildcardBase owner with
  | some base => ⟨key base, result.modify 2 (· - 19)⟩
  | none => ⟨key owner, result⟩

/-- `rr_start`, `rr_add` and `rr_finish` of one record. -/
def rr (owner : Name) (type : Bytes) (ttl : Nat) (ttd loc rdata : Bytes) : CdbRecord :=
  rrFinish owner true (rrStart type ttl ttd loc ++ rdata)

/-- The A record of a server, if the line has its address. -/
def serverAddress (owner : Name) (ttl : Nat) (ttd loc text : Bytes) : List CdbRecord :=
  match ip4Scan text with
  | none => []
  | some ip => [rr owner dnsTA ttl ttd loc ip]

/-- `dns_name4_domain`. -/
def dnsName4Domain (ip : Bytes) : Name :=
  (ip.reverse.map fun b => decimal b.toNat) ++ [ascii "in-addr", ascii "arpa"]

/-- `dns_name6_domain`, under the given last label. -/
def dnsName6Domain (ip : Bytes) (last : String) : Name :=
  (ip.reverse.flatMap fun b => [[tohex (b % 16)], [tohex (b / 16)]]) ++ [ascii "ip6", ascii last]

/-! ## Kinds of lines -/

def compilePercent (f : Nat → Bytes) : List CdbRecord :=
  [⟨0 :: 37 :: ipprefixCat (cString (f 1)), locparse (f 0)⟩]

def compileSoa (env : Env) (f : Nat → Bytes) : Except Die (List CdbRecord) := do
  let number (i : Nat) : Bytes :=
    be32 (scanUlongOr (unbe ((env.defaultsoa.drop (4 * i)).take 4)) (f (3 + i)))
  let d1 ← fromdot (f 0)
  let ttl := scanUlongOr ttlNegative (f 8)
  let mname ← fromdot (f 1)
  let rname ← fromdot (f 2)
  .ok [rr d1 dnsTSoa ttl (ttdparse (f 9)) (locparse (f 10))
    (wire mname ++ (wire rname ++ (number 0 ++ (number 1 ++ (number 2 ++ (number 3 ++ number 4))))))]

/-- `.` and `&` lines; the former also make the zone's SOA. -/
def compileNs (env : Env) (soa : Bool) (f : Nat → Bytes) : Except Die (List CdbRecord) := do
  let d1 ← fromdot (f 0)
  let ttl := scanUlongOr ttlNs (f 3)
  let ttd := ttdparse (f 4)
  let loc := locparse (f 5)
  let d2 ← fromdot (qualify ".ns." (f 0) (f 2))
  let zone := rr d1 dnsTSoa (if ttl = 0 then 0 else ttlNegative) ttd loc
    (wire d2 ++ (wire (ascii "hostmaster" :: d1) ++ env.defaultsoa))
  .ok ((if soa then [zone] else []) ++
    rr d1 dnsTNs ttl ttd loc (wire d2) :: serverAddress d2 ttl ttd loc (f 1))

/-- `+` and `=` lines; the latter also make the reverse record. -/
def compileA (reverse : Bool) (f : Nat → Bytes) : Except Die (List CdbRecord) := do
  let d1 ← fromdot (f 0)
  let ttl := scanUlongOr ttlPositive (f 2)
  let ttd := ttdparse (f 3)
  let loc := locparse (f 4)
  match ip4Scan (f 1) with
  | none => .ok []
  | some ip =>
    .ok (rr d1 dnsTA ttl ttd loc ip ::
      if reverse then [rr (dnsName4Domain ip) dnsTPtr ttl ttd loc (wire d1)] else [])

/-- `3` and `6` lines; the latter also make the reverse records under both trees. -/
def compileAaaa (reverse : Bool) (f : Nat → Bytes) : Except Die (List CdbRecord) := do
  let d1 ← fromdot (f 0)
  let ttl := scanUlongOr ttlPositive (f 2)
  let ttd := ttdparse (f 3)
  let loc := locparse (f 4)
  match ip6ScanFlat (f 1) with
  | none => .ok []
  | some ip6 =>
    .ok (rr d1 dnsTAaaa ttl ttd loc ip6 ::
      if reverse then
        [rr (dnsName6Domain ip6 "arpa") dnsTPtr ttl ttd loc (wire d1),
          rr (dnsName6Domain ip6 "int") dnsTPtr ttl ttd loc (wire d1)]
      else [])

def compileMx (f : Nat → Bytes) : Except Die (List CdbRecord) := do
  let d1 ← fromdot (f 0)
  let ttl := scanUlongOr ttlPositive (f 4)
  let ttd := ttdparse (f 5)
  let loc := locparse (f 6)
  let d2 ← fromdot (qualify ".mx." (f 0) (f 2))
  let u := scanUlongOr 0 (f 3)
  .ok (rr d1 dnsTMx ttl ttd loc (be16 u ++ wire d2) :: serverAddress d2 ttl ttd loc (f 1))

/-- `S` lines: the port stands first in the line, behind priority and weight in the record, and has
no default. -/
def compileSrv (f : Nat → Bytes) : Except Die (List CdbRecord) := do
  let d1 ← fromdot (f 0)
  let ttl := scanUlongOr ttlPositive (f 6)
  let ttd := ttdparse (f 7)
  let loc := locparse (f 8)
  let d2 ← fromdot (qualify ".srv." (f 0) (f 2))
  let priority := scanUlongOr 0 (f 4)
  let weight := scanUlongOr 0 (f 5)
  if digitRun (f 3) = [] then .error .nomem
  else
    let port := scanUlong (f 3)
    .ok (rr d1 dnsTSrv ttl ttd loc (be16 priority ++ (be16 weight ++ (be16 port ++ wire d2))) ::
      serverAddress d2 ttl ttd loc (f 1))

/-- `^` and `C` lines. -/
def compileName (type : Bytes) (f : Nat → Bytes) : Except Die (List CdbRecord) := do
  let d1 ← fromdot (f 0)
  let d2 ← fromdot (f 1)
  let ttl := scanUlongOr ttlPositive (f 2)
  .ok [rr d1 type ttl (ttdparse (f 3)) (locparse (f 4)) (wire d2)]

/-- Text as a sequence of character strings of at most 255 octets. -/
def txtChunks : Nat → Bytes → Bytes
  | 0, _ => []
  | rounds + 1, s =>
    if s = [] then []
    else UInt8.ofNat (s.take 255).length :: (s.take 255 ++ txtChunks rounds (s.drop 255))

def compileTxt (f : Nat → Bytes) : Except Die (List CdbRecord) := do
  let d1 ← fromdot (f 0)
  let ttl := scanUlongOr ttlPositive (f 2)
  let text := txtparse (f 1)
  .ok [rr d1 dnsTTxt ttl (ttdparse (f 3)) (locparse (f 4)) (txtChunks text.length text)]

/-- The owner a `_` line stands for, as text. -/
def tlsaOwner (env : Env) (fqdn x port proto : Bytes) : Bytes :=
  let first := x.headD env.stale
  if x = [] ∧ port = [] ∧ proto = [] then ascii "_25._tcp.mail." ++ fqdn
  else if first ≠ 95 then
    ascii "_" ++ (if port = [] then ascii "25" else port) ++ ascii "._" ++
      (if proto = [] then ascii "tcp" else proto) ++ (if first = 46 then [] else ascii ".") ++
      x ++ ascii "." ++ fqdn
  else x

/-- `_` lines. The usage and selector fields are read and then overwritten. -/
def compileTlsa (env : Env) (f : Nat → Bytes) : Except Die (List CdbRecord) := do
  let _ ← fromdot (f 0)
  let ttl := scanUlongOr ttlPositive (f 7)
  let us : UInt8 := 3
  let sl : UInt8 := 0
  let ty : UInt8 := if (f 3).length = 64 then 1 else if (f 3).length = 128 then 2 else 0
  let d2 ← fromdot (tlsaOwner env (f 0) (f 4) (f 5) (f 6))
  .ok [rr d2 dnsTTlsa ttl (ttdparse (f 8)) (locparse (f 9))
    ([us, sl, ty] ++ hexparse env.stale (lower (f 3)))]

/-- The types a generic line may not have, each with the complaint. -/
def prohibited : List (Bytes × String) :=
  [(dnsTAxfr, ": type AXFR prohibited"), ([0, 0], ": type 0 prohibited"),
    (dnsTSoa, ": type SOA prohibited"), (dnsTNs, ": type NS prohibited"),
    (dnsTCname, ": type CNAME prohibited"), (dnsTPtr, ": type PTR prohibited"),
    (dnsTMx, ": type MX prohibited")]

/-- `:` lines. The owner of the bucket records, type 65282, keeps its letter case. -/
def compileGeneric (f : Nat → Bytes) : Except Die (List CdbRecord) := do
  let d1 ← fromdot (f 0)
  let ttl := scanUlongOr ttlPositive (f 3)
  let u := scanUlong (f 1)
  let type := be16 u
  match prohibited.lookup type with
  | some why => .error (.syntaxerror why)
  | none =>
    .ok [rrFinish d1 (decide (u ≠ 65282))
      (rrStart type ttl (ttdparse (f 4)) (locparse (f 5)) ++ txtparse (f 2))]

/-! ## Lines and files -/

/-- A blank at the end of a line. -/
def isBlank (ch : UInt8) : Bool := decide (ch = 32) || decide (ch = 9) || decide (ch = 10)

/-- A line without the blanks at its end. -/
def trimLine (line : Bytes) : Bytes := (line.reverse.dropWhile isBlank).reverse

/-- What the fields of a line add to the database, by the character the line begins with. -/
def compileKind (env : Env) (kind : UInt8) (f : Nat → Bytes) : Except Die (List CdbRecord) :=
  match kind with
  | 35 => .ok []                        -- `#`
  | 45 => .ok []                        -- `-`
  | 37 => .ok (compilePercent f)        -- `%`
  | 90 => compileSoa env f              -- `Z`
  | 46 => compileNs env true f          -- `.`
  | 38 => compileNs env false f         -- `&`
  | 43 => compileA false f              -- `+`
  | 61 => compileA true f               -- `=`
  | 51 => compileAaaa false f           -- `3`
  | 54 => compileAaaa true f            -- `6`
  | 64 => compileMx f                   -- `@`
  | 83 => compileSrv f                  -- `S`
  | 94 => compileName dnsTPtr f         -- `^`
  | 67 => compileName dnsTCname f       -- `C`
  | 39 => compileTxt f                  -- `'`
  | 95 => compileTlsa env f             -- `_`
  | 58 => compileGeneric f              -- `:`
  | _ => .error (.syntaxerror ": unrecognized leading character")

/-- The fields of the rest of a line; a missing field is empty. -/
def fields (rest : Bytes) (i : Nat) : Bytes := (split 58 rest).getD i []

def compileLine (env : Env) (line : Bytes) : Except Die (List CdbRecord) :=
  match trimLine line with
  | [] => .ok []
  | kind :: rest => compileKind env kind (fields rest)

def compileLines (env : Env) : List Bytes → Except Die (List CdbRecord)
  | [] => .ok []
  | line :: lines => do
    let records ← compileLine env line
    let more ← compileLines env lines
    .ok (records ++ more)

/-- The records a data file makes, in the order they are added to the database. -/
def compileFile (env : Env) (text : Bytes) : Except Die (List CdbRecord) :=
  compileLines env (split 10 text)

/-! ## What a line reads as -/

/-- Text that neither a field nor a line ends inside of. -/
def Clean (s : Bytes) : Prop := ∀ b ∈ s, b ≠ 58 ∧ b ≠ 10

theorem Clean.nil : Clean [] := fun _ h => absurd h List.not_mem_nil

theorem Clean.append {s t : Bytes} (hs : Clean s) (ht : Clean t) : Clean (s ++ t) :=
  fun b hb => (List.mem_append.mp hb).elim (hs b) (ht b)

theorem Clean.cons {b : UInt8} {s : Bytes} (hb : b ≠ 58 ∧ b ≠ 10) (hs : Clean s) :
    Clean (b :: s) :=
  fun c hc => (List.mem_cons.mp hc).elim (fun h => h ▸ hb) (hs c)

theorem clean_isDigit (b : UInt8) (h : isDigit b = true) : b ≠ 58 ∧ b ≠ 10 := by
  constructor <;> intro hb <;> rw [hb] at h <;> exact absurd h (by decide)

theorem clean_decimal (n : Nat) : Clean (decimal n) :=
  fun b hb => clean_isDigit b (decimal_digits n b hb)

theorem clean_escape {plain : UInt8 → Bool} (colon : plain 58 = false) (newline : plain 10 = false)
    (s : Bytes) : Clean (escape plain s) := by
  have other (c b : UInt8) (hc : c = 58 ∨ c = 10) : c ∉ octal b := by
    intro h
    rcases mem_octal h with h | h
    · rcases hc with rfl | rfl <;> exact absurd h (by decide)
    · rcases hc with rfl | rfl <;> exact absurd h (by decide)
  refine fun b hb => ⟨fun h => ?_, fun h => ?_⟩
  · exact not_mem_escape colon (fun b => other 58 b (.inl rfl)) s (h ▸ hb)
  · exact not_mem_escape newline (fun b => other 10 b (.inr rfl)) s (h ▸ hb)

theorem txtparse_escape {plain : UInt8 → Bool} (backslash : plain 92 = false) (s : Bytes) :
    txtparse (escape plain s) = s := by
  have h := unescape_escape backslash s []
  rw [List.append_nil, unescape, List.append_nil] at h
  rw [txtparse, h, List.map_map]
  exact List.map_id s

/-- A line that does not end in a blank has no blanks to lose. -/
theorem trimLine_of_last (s : Bytes) {last : UInt8} (h : isBlank last = false) :
    trimLine (s ++ [last]) = s ++ [last] := by
  rw [trimLine, List.reverse_append, List.reverse_singleton, List.singleton_append,
    List.dropWhile_cons, h, if_neg Bool.false_ne_true, List.reverse_cons, List.reverse_reverse]

/-- A line loses nothing exactly when it does not end in a blank. -/
theorem trimLine_eq_iff {s : Bytes} : trimLine s = s ↔ ∀ b ∈ s.getLast?, isBlank b = false := by
  rcases List.eq_nil_or_concat s with rfl | ⟨init, last, rfl⟩
  · exact iff_of_true rfl fun _ h => by cases h
  · rw [List.concat_eq_append, List.getLast?_concat]
    constructor
    · intro h b hb
      cases hb
      cases hblank : isBlank last with
      | false => rfl
      | true =>
        rw [trimLine, List.reverse_append, List.reverse_singleton, List.singleton_append,
          List.dropWhile_cons, hblank, if_pos rfl] at h
        have hlen := congrArg List.length h
        have hle := (List.dropWhile_suffix isBlank (l := init.reverse)).length_le
        rw [List.length_reverse, List.length_append, List.length_singleton] at hlen
        rw [List.length_reverse] at hle
        omega
    · intro h
      exact trimLine_of_last init (h last rfl)

/-- The first octet of a line stays, unless it is a blank. -/
theorem trimLine_cons {c : UInt8} (h : isBlank c = false) (s : Bytes) :
    trimLine (c :: s) = c :: trimLine s := by
  have happend := @List.dropWhile_append _ isBlank s.reverse [c]
  unfold trimLine
  rw [List.reverse_cons, happend]
  split
  · rename_i hempty
    rw [List.isEmpty_iff.mp hempty, List.dropWhile_cons, h]
    rfl
  · rw [List.reverse_append]
    rfl

/-- Nothing in front of an octet that is no blank is lost. -/
theorem trimLine_behind {c : UInt8} (h : isBlank c = false) (s t : Bytes) :
    trimLine (s ++ c :: t) = s ++ c :: trimLine t := by
  have happend := @List.dropWhile_append _ isBlank t.reverse (c :: s.reverse)
  unfold trimLine
  rw [List.reverse_append, List.reverse_cons, List.append_assoc, List.singleton_append, happend]
  split
  · rename_i hempty
    rw [List.isEmpty_iff.mp hempty, List.dropWhile_cons, h, if_neg Bool.false_ne_true,
      List.reverse_cons, List.reverse_reverse]
    rfl
  · rw [List.reverse_append, List.reverse_cons, List.reverse_reverse, List.append_assoc,
      List.singleton_append]

/-- Joined fields lose nothing exactly when the last of them does not end in a blank. -/
theorem trimLine_join {fs : List Bytes} (some : fs ≠ []) (f : Bytes) :
    trimLine (join 58 (fs ++ [f])) = join 58 (fs ++ [f]) ↔ ∀ b ∈ f.getLast?, isBlank b = false := by
  rw [join_concat some, trimLine_eq_iff, List.getLast?_append, List.getLast?_cons]
  cases hlast : f.getLast? with
  | none =>
    refine iff_of_true (fun b hb => ?_) fun _ h => by cases h
    cases hb
    rfl
  | some last => exact Iff.rfl

/-- **A line is read field by field.** -/
theorem compileLine_fields (env : Env) {kind : UInt8} (nonblank : isBlank kind = false)
    {rest : Bytes} (whole : trimLine rest = rest) {fs : List Bytes}
    (cut : ∃ k, split 58 rest ++ List.replicate k [] = fs) :
    compileLine env (kind :: rest) = compileKind env kind fun i => fs.getD i [] := by
  obtain ⟨k, rfl⟩ := cut
  unfold compileLine
  rw [trimLine_cons nonblank, whole]
  refine congrArg (compileKind env kind) (funext fun i => ?_)
  unfold fields
  rw [List.getD_eq_getElem?_getD, List.getD_eq_getElem?_getD, List.getElem?_append]
  split
  · rfl
  · rename_i hout
    rw [List.getElem?_eq_none (Nat.le_of_not_lt hout), List.getElem?_replicate]
    split <;> rfl

/-- A comment makes no records. -/
theorem compileLine_comment (env : Env) (s : Bytes) : compileLine env (35 :: s) = .ok [] := by
  unfold compileLine
  rw [trimLine_cons rfl]
  rfl

/-- A file's first line is compiled on its own. -/
theorem compileFile_append (env : Env) {line : Bytes} (clean : 10 ∉ line) (rest : Bytes) :
    compileFile env (line ++ 10 :: rest) = (do
      let records ← compileLine env line
      let more ← compileFile env rest
      .ok (records ++ more)) := by
  rw [compileFile, split_append clean]
  rfl

theorem compileFile_nil (env : Env) : compileFile env [] = .ok [] := rfl

theorem compileFile_line (env : Env) {line : Bytes} (clean : 10 ∉ line) :
    compileFile env (line ++ [10]) = compileLine env line := by
  rw [compileFile_append env clean, compileFile_nil]
  cases compileLine env line with
  | error why => rfl
  | ok records => exact congrArg Except.ok (List.append_nil records)

end TinyDnssec.Data
