import TinyDnssec.Data.Compile
import TinyDnssec.Packet

/-!
# axfr-get

The zone transfer client: `doit` of `axfr-get.c` turns one record of the transfer into a line of a
data file, which `tinydns-data` compiles on the secondary. The round trip law of the pair is that
the line compiles to the record it was written for.

`Rr` is a record a transfer can carry, with data that fits its type; `Rr.At` says where it stands
in a packet. `doit_writes` and `compileFile_text` are the two halves, what is written and what is
read, and `doit_round_trip` puts them together. The law fails in two places only: an SRV line has
its three numbers in another order than the reader expects, and a bucket record's owner loses its
capitals although the reader keeps them.

That the primary sends what its zone has, and that the file is renamed in time, is not a question here.
-/

namespace TinyDnssec.Axfr

open Octets Data

/-! ## The writer -/

def printable (ch : UInt8) : Bool :=
  decide (ch = 46) || (decide (97 ≤ ch) && decide (ch ≤ 122)) || isDigit ch ||
    (decide (65 ≤ ch) && decide (ch ≤ 90)) || decide (ch = 45)

/-- A line: its kind, its fields and the newline. -/
def lineText (kind : UInt8) (fs : List Bytes) : Bytes := kind :: (join 58 fs ++ [10])

/-- A name that stands behind another field is closed with a dot. -/
def closed (d : Name) : Bytes := dnsDomainTodot d ++ [46]

/-- The number at a place of the twenty octets behind an SOA's names. -/
def soaNumber (data : Bytes) (i : Nat) : Nat := unbe ((data.drop (4 * i)).take 4)

/-- The lines of an SOA record: the serial for the next run, and the record. -/
def soaLines (buf : Bytes) (pos : Nat) (d1 : Name) (ttl : Nat) : Option Bytes := do
  let (d2, pos) ← dnsPacketGetname buf pos
  let (d3, pos) ← dnsPacketGetname buf pos
  let (data, _) ← dnsPacketCopy buf pos 20
  let number (i : Nat) : Bytes := decimal (soaNumber data i)
  some (35 :: (number 0 ++ ascii " auto axfr-get\n") ++
    lineText 90 [dnsDomainTodot d1, closed d2, closed d3,
      number 0, number 1, number 2, number 3, number 4, decimal ttl])

/-- The line of a record that is not an SOA, by its type. A name server of a wildcard is refused.
The source tests for PTR a second time behind A, where no PTR record arrives. -/
def recordLine (buf : Bytes) (pos : Nat) (d1 : Name) (header : RrHeader) : Option Bytes :=
  let owner := dnsDomainTodot d1
  let ttl := decimal header.ttl
  if header.type = dnsTNs then
    if (wildcardBase d1).isSome then none
    else do
      let (d, _) ← dnsPacketGetname buf pos
      some (lineText 38 [owner, [], closed d, ttl])
  else if header.type = dnsTCname then do
    let (d, _) ← dnsPacketGetname buf pos
    some (lineText 67 [owner, closed d, ttl])
  else if header.type = dnsTPtr then do
    let (d, _) ← dnsPacketGetname buf pos
    some (lineText 94 [owner, closed d, ttl])
  else if header.type = dnsTMx then do
    let (dist, pos) ← dnsPacketCopy buf pos 2
    let (d, _) ← dnsPacketGetname buf pos
    some (lineText 64 [owner, [], closed d, decimal (unbe dist), ttl])
  else if header.type = dnsTSrv then do
    let (dist, pos) ← dnsPacketCopy buf pos 2
    let (weight, pos) ← dnsPacketCopy buf pos 2
    let (port, pos) ← dnsPacketCopy buf pos 2
    let (d, _) ← dnsPacketGetname buf pos
    some (lineText 83 [owner, [], closed d, decimal (unbe dist), decimal (unbe weight),
      decimal (unbe port), ttl])
  else if header.type = dnsTA ∧ header.datalen = 4 then do
    let (ip, _) ← dnsPacketCopy buf pos 4
    some (lineText 43 [owner, ip4Fmt (ip.getD 0 0) (ip.getD 1 0) (ip.getD 2 0) (ip.getD 3 0), ttl])
  else if header.type = dnsTAaaa then do
    let (ip, _) ← dnsPacketCopy buf pos 16
    some (lineText 51 [owner, ip6FmtFlat ip, ttl])
  else do
    let (data, _) ← dnsPacketCopy buf pos header.datalen
    some (lineText 58 [owner, decimal (unbe header.type), escape printable data, ttl])

/-- One record of the transfer: how many SOAs have come by now, what is written, and the position
behind the record. `none` ends the program. -/
def doit (zone : Name) (numsoa : Nat) (buf : Bytes) (pos : Nat) : Option (Nat × Bytes × Nat) :=
  match dnsPacketGetname buf pos with
  | none => none
  | some (d1, pos) =>
    match dnsPacketCopy buf pos 10 with
    | none => none
    | some (x, pos) =>
      let header := rrHeader x
      let len := pos + header.datalen
      if buf.length - pos < header.datalen then none
      else if ¬ dnsDomainSuffix d1 zone then some (numsoa, [], len)
      else if header.cls ≠ dnsCIn then some (numsoa, [], len)
      else if header.type = dnsTSoa then
        if numsoa + 1 ≥ 2 then some (numsoa + 1, [], len)
        else (soaLines (buf.take len) pos d1 header.ttl).map fun text => (numsoa + 1, text, len)
      else (recordLine (buf.take len) pos d1 header).map fun text => (numsoa, text, len)

/-! ## Records -/

/-- The data of a record, by the shapes the two programs know. -/
inductive Rdata where
  | soa (mname rname : Name) (serial refresh retry expire minimum : UInt32)
  | name (d : Name)
  | mx (dist : UInt16) (d : Name)
  | srv (priority weight port : UInt16) (d : Name)
  | octets (s : Bytes)
deriving DecidableEq

/-- The data as it stands in a packet, with the names written out in full. -/
def Rdata.encode : Rdata → Bytes
  | soa mname rname serial refresh retry expire minimum =>
    wire mname ++ (wire rname ++ (be32 serial.toNat ++ (be32 refresh.toNat ++
      (be32 retry.toNat ++ (be32 expire.toNat ++ be32 minimum.toNat)))))
  | name d => wire d
  | mx dist d => be16 dist.toNat ++ wire d
  | srv priority weight port d =>
    be16 priority.toNat ++ (be16 weight.toNat ++ (be16 port.toNat ++ wire d))
  | octets s => s

/-- The data with the letter case of its names forgotten. -/
def Rdata.fold : Rdata → Rdata
  | soa mname rname serial refresh retry expire minimum =>
    soa (lowerName mname) (lowerName rname) serial refresh retry expire minimum
  | name d => name (lowerName d)
  | mx dist d => mx dist (lowerName d)
  | srv priority weight port d => srv priority weight port (lowerName d)
  | octets s => octets s

/-- Data that is well formed for a type. -/
def Rdata.Fits (type : Bytes) : Rdata → Prop
  | soa mname rname _ _ _ _ _ => type = dnsTSoa ∧ Valid mname ∧ Valid rname
  | name d => (type = dnsTNs ∨ type = dnsTCname ∨ type = dnsTPtr) ∧ Valid d
  | mx _ d => type = dnsTMx ∧ Valid d
  | srv _ _ _ d => type = dnsTSrv ∧ Valid d
  | octets s => type ∉ [dnsTSoa, dnsTNs, dnsTCname, dnsTPtr, dnsTMx, dnsTSrv] ∧
      (type = dnsTA → s.length = 4) ∧ (type = dnsTAaaa → s.length = 16) ∧ s.length < 65536

/-- A record of class IN, with data that fits its type. -/
structure Rr where
  owner : Name
  type : Bytes
  ttl : UInt32
  data : Rdata
  validOwner : Valid owner
  typeOctets : type.length = 2
  fits : data.Fits type

/-- The record stands at a position of a packet, and `next` is the position behind it. Its owner
may be compressed, its data is not. -/
def Rr.At (rr : Rr) (buf : Bytes) (pos next : Nat) : Prop :=
  ∃ p, dnsPacketGetname buf pos = some (rr.owner, p) ∧
    (rr.type ++ dnsCIn ++ be32 rr.ttl.toNat ++ be16 rr.data.encode.length) ++ rr.data.encode <+:
      buf.drop p ∧
    next = p + 10 + rr.data.encode.length

/-- The owner without the label of a wildcard. -/
def Rr.base (rr : Rr) : Name := (wildcardBase rr.owner).getD rr.owner

/-- The mark of a record without location, by whether it is a wildcard's. -/
def Rr.mark (rr : Rr) : UInt8 := if (wildcardBase rr.owner).isSome then 42 else 61

/-- A text compiles to exactly one record of the database, with the owner, wildcard flag, type, ttl
and data of the given one: the owner of a bucket record octet for octet, any other owner and the
names in the data up to letter case. -/
def Rr.CompiledFrom (rr : Rr) (env : Env) (text : Bytes) : Prop :=
  ∃ (record : CdbRecord) (data : Rdata), compileFile env text = .ok [record] ∧ data.fold = rr.data.fold ∧
    record.data =
      rr.type ++ rr.mark :: (be32 rr.ttl.toNat ++ (List.replicate 8 0 ++ data.encode)) ∧
    (if rr.type = dnsTHashlist then record.key = wire rr.base
      else lower record.key = lower (wire rr.base))

/-! ## What the fields look like -/

theorem clean_printable (s : Bytes) : Clean (escape printable s) := clean_escape rfl rfl s

theorem clean_todot (d : Name) : Clean (dnsDomainTodot d) := by
  have label (l : Label) : Clean (todotLabel l) := clean_escape rfl rfl _
  induction d with
  | nil => exact .cons (by decide) .nil
  | cons l d ih =>
    cases d with
    | nil => exact label l
    | cons k d => exact (label l).append (.cons (by decide) ih)

theorem clean_closed (d : Name) : Clean (closed d) :=
  (clean_todot d).append (.cons (by decide) .nil)

theorem clean_ip4Fmt (a b c d : UInt8) : Clean (ip4Fmt a b c d) :=
  (clean_decimal _).append (.cons (by decide) ((clean_decimal _).append (.cons (by decide)
    ((clean_decimal _).append (.cons (by decide) (clean_decimal _))))))

theorem clean_ip6FmtFlat (ip : Bytes) : Clean (ip6FmtFlat ip) := by
  have digit {c v : UInt8} (h : fromhex c = some v) : c ≠ 58 ∧ c ≠ 10 := by
    constructor <;> intro hc <;> rw [hc] at h <;> cases h
  intro c hc
  obtain ⟨b, _, hb⟩ := List.mem_flatMap.mp hc
  obtain ⟨hhigh, hlow, _⟩ := fromhex_tohex b
  rcases List.mem_cons.mp hb with rfl | hb
  · exact digit hhigh
  · rw [List.mem_singleton.mp hb]
    exact digit hlow

/-! ## What a line reads as -/

theorem trimLine_decimal (s : Bytes) (n : Nat) : trimLine (s ++ decimal n) = s ++ decimal n := by
  have blank : ∀ b : UInt8, isDigit b = true → isBlank b = false := by decide +kernel
  obtain ⟨init, last, hlast⟩ : ∃ init last, decimal n = init ++ [last] :=
    ⟨_, _, (List.dropLast_append_getLast (decimal_ne_nil n)).symm⟩
  have hdigit : isBlank last = false :=
    blank last (decimal_digits n last (by rw [hlast]; exact List.mem_append_right _ List.mem_cons_self))
  rw [hlast, ← List.append_assoc, trimLine_of_last _ hdigit]

/-- **A line of clean fields with a number at its end is read field by field.** -/
theorem compileLine_join (env : Env) (kind : UInt8) {fs : List Bytes} (clean : ∀ f ∈ fs, Clean f)
    (n : Nat) :
    compileLine env (kind :: join 58 (fs ++ [decimal n])) =
      compileKind env kind fun i => (fs ++ [decimal n]).getD i [] := by
  have hends : ∃ s, kind :: join 58 (fs ++ [decimal n]) = kind :: (s ++ decimal n) := by
    clear clean
    induction fs with
    | nil => exact ⟨[], rfl⟩
    | cons f fs ih =>
      obtain ⟨s, hs⟩ := ih
      refine ⟨f ++ 58 :: s, ?_⟩
      rw [List.cons_append, join_cons (List.append_ne_nil_of_right_ne_nil _ (List.cons_ne_nil _ _)),
        (List.cons.inj hs).2, List.append_assoc, List.cons_append]
  have htrim : trimLine (kind :: join 58 (fs ++ [decimal n])) =
      kind :: join 58 (fs ++ [decimal n]) := by
    obtain ⟨s, hs⟩ := hends
    rw [hs, ← List.cons_append, trimLine_decimal]
  have hclean : ∀ f ∈ fs ++ [decimal n], (58 : UInt8) ∉ f := by
    intro f hf hcolon
    rcases List.mem_append.mp hf with hf | hf
    · exact (clean f hf _ hcolon).1 rfl
    · rw [List.mem_singleton.mp hf] at hcolon
      exact (clean_decimal n _ hcolon).1 rfl
  have hfields (i : Nat) :
      fields (join 58 (fs ++ [decimal n])) i = (fs ++ [decimal n]).getD i [] := by
    rw [fields, split_join (List.append_ne_nil_of_right_ne_nil _ (List.cons_ne_nil _ _)) hclean]
  rw [compileLine, htrim]
  exact congrArg (compileKind env kind) (funext hfields)

/-- **The written line compiles to what its fields mean.** -/
theorem compileFile_lineText (env : Env) {kind : UInt8} (hkind : kind ≠ 10) (fs : List Bytes)
    (clean : ∀ f ∈ fs, Clean f) (n : Nat) :
    compileFile env (lineText kind (fs ++ [decimal n])) =
      compileKind env kind fun i => (fs ++ [decimal n]).getD i [] := by
  have hline : (10 : UInt8) ∉ kind :: join 58 (fs ++ [decimal n]) := by
    intro h
    rcases List.mem_cons.mp h with h | h
    · exact hkind h.symm
    · rcases mem_join h with h | ⟨f, hf, h⟩
      · exact absurd h (by decide)
      · rcases List.mem_append.mp hf with hf | hf
        · exact (clean f hf _ h).2 rfl
        · rw [List.mem_singleton.mp hf] at h
          exact (clean_decimal n _ h).2 rfl
  rw [lineText, ← List.cons_append, compileFile_line env hline, compileLine_join env kind clean]

/-! ## The reader -/

theorem fromdot_todot {d : Name} (valid : Valid d) :
    fromdot (dnsDomainTodot d) = .ok (lowerName d) := by
  have h := dnsDomainFromdot_todot valid 0
  rw [List.replicate_zero, List.append_nil] at h
  rw [fromdot, h]

theorem fromdot_closed {d : Name} (valid : Valid d) : fromdot (closed d) = .ok (lowerName d) := by
  rw [fromdot, closed]
  simp only [dnsDomainFromdot_todot valid 1, ← List.replicate_one]

theorem qualify_closed (kind : String) (fqdn : Bytes) (d : Name) :
    qualify kind fqdn (closed d) = closed d :=
  if_pos (List.mem_append_right _ List.mem_cons_self)

theorem lookup_prohibited {type : Bytes}
    (allowed : ∀ t ∈ [dnsTAxfr, [0, 0], dnsTSoa, dnsTNs, dnsTCname, dnsTPtr, dnsTMx], type ≠ t) :
    prohibited.lookup type = none := by
  refine List.lookup_eq_none_iff.mpr fun p hp => ?_
  exact bne_iff_ne.mpr (allowed p.1 (List.mem_map_of_mem hp))

/-- A type is what its number packs to. -/
theorem be16_type {type : Bytes} (two : type.length = 2) :
    be16 (unbe type) = type ∧ unbe type < 65536 := by
  obtain ⟨a, b, rfl⟩ := List.length_eq_two.mp two
  have ha := a.toNat_lt
  have hb := b.toNat_lt
  refine ⟨be16_unbe a b, ?_⟩
  rw [unbe_pair]
  omega

theorem unbe_eq_hashlist {type : Bytes} (two : type.length = 2) :
    unbe type = 65282 ↔ type = dnsTHashlist := by
  refine ⟨fun h => ?_, fun h => h ▸ rfl⟩
  rw [← (be16_type two).1, h]
  rfl

/-- The data a line stands for when it is read: the names in lower case, and the three numbers of a
service read from each other's places. -/
def Rdata.asRead : Rdata → Rdata
  | srv priority weight port d => srv weight port priority (lowerName d)
  | data => data.fold

/-- The text `doit` writes for a record. -/
def Rr.text (rr : Rr) : Bytes :=
  let owner := dnsDomainTodot rr.owner
  let ttl := decimal rr.ttl.toNat
  match rr.data with
  | .soa mname rname serial refresh retry expire minimum =>
    35 :: (decimal serial.toNat ++ ascii " auto axfr-get\n") ++
      lineText 90 [owner, closed mname, closed rname, decimal serial.toNat, decimal refresh.toNat,
        decimal retry.toNat, decimal expire.toNat, decimal minimum.toNat, ttl]
  | .name d =>
    if rr.type = dnsTNs then lineText 38 [owner, [], closed d, ttl]
    else if rr.type = dnsTCname then lineText 67 [owner, closed d, ttl]
    else lineText 94 [owner, closed d, ttl]
  | .mx dist d => lineText 64 [owner, [], closed d, decimal dist.toNat, ttl]
  | .srv priority weight port d =>
    lineText 83 [owner, [], closed d, decimal priority.toNat, decimal weight.toNat,
      decimal port.toNat, ttl]
  | .octets s =>
    if rr.type = dnsTA then
      lineText 43 [owner, ip4Fmt (s.getD 0 0) (s.getD 1 0) (s.getD 2 0) (s.getD 3 0), ttl]
    else if rr.type = dnsTAaaa then lineText 51 [owner, ip6FmtFlat s, ttl]
    else lineText 58 [owner, decimal (unbe rr.type), escape printable s, ttl]

/-- The record of the database a record is read back as. -/
def Rr.stored (rr : Rr) : CdbRecord :=
  rrFinish (lowerName rr.owner) (decide (rr.type ≠ dnsTHashlist))
    (rrStart rr.type rr.ttl.toNat (List.replicate 8 0) [0, 0] ++ rr.data.asRead.encode)

theorem uint32_lt (u : UInt32) : u.toNat < 4294967296 := u.toNat_lt

theorem uint16_lt (u : UInt16) : u.toNat < 4294967296 := Nat.lt_trans u.toNat_lt (by decide)

theorem ttdparse_nil : ttdparse [] = List.replicate 8 0 := rfl

theorem locparse_nil : locparse [] = [0, 0] := rfl

theorem serverAddress_nil (owner : Name) (ttl : Nat) (ttd loc : Bytes) :
    serverAddress owner ttl ttd loc [] = [] := rfl

theorem compileKind_soa (env : Env) {d1 mname rname : Name} (hd : Valid d1) (hm : Valid mname)
    (hr : Valid rname) (serial refresh retry expire minimum ttl : UInt32) :
    compileKind env 90 (fun i => [dnsDomainTodot d1, closed mname, closed rname,
        decimal serial.toNat, decimal refresh.toNat, decimal retry.toNat, decimal expire.toNat,
        decimal minimum.toNat, decimal ttl.toNat].getD i []) =
      .ok [rr (lowerName d1) dnsTSoa ttl.toNat (List.replicate 8 0) [0, 0]
        (Rdata.soa (lowerName mname) (lowerName rname) serial refresh retry expire minimum).encode] := by
  rw [show compileKind env 90 = compileSoa env from rfl]
  simp only [compileSoa, List.getD_cons_zero, List.getD_cons_succ, List.getD_nil, fromdot_todot hd,
    fromdot_closed hm, fromdot_closed hr, scanUlongOr_decimal _ (uint32_lt _), ttdparse_nil,
    locparse_nil, Rdata.encode, bind, Except.bind, Nat.add_zero, Nat.reduceAdd]

theorem compileKind_ns (env : Env) {d1 d : Name} (hd1 : Valid d1) (hd : Valid d) (ttl : UInt32) :
    compileKind env 38 (fun i => [dnsDomainTodot d1, [], closed d, decimal ttl.toNat].getD i []) =
      .ok [rr (lowerName d1) dnsTNs ttl.toNat (List.replicate 8 0) [0, 0] (wire (lowerName d))] := by
  rw [show compileKind env 38 = compileNs env false from rfl]
  simp only [compileNs, List.getD_cons_zero, List.getD_cons_succ, List.getD_nil,
    fromdot_todot hd1, qualify_closed, fromdot_closed hd, scanUlongOr_decimal _ (uint32_lt _),
    ttdparse_nil, locparse_nil, serverAddress_nil, bind, Except.bind, Bool.false_eq_true, if_false,
    List.nil_append]

theorem compileName_closed {d1 d : Name} (hd1 : Valid d1) (hd : Valid d) (type : Bytes)
    (ttl : UInt32) :
    compileName type (fun i => [dnsDomainTodot d1, closed d, decimal ttl.toNat].getD i []) =
      .ok [rr (lowerName d1) type ttl.toNat (List.replicate 8 0) [0, 0] (wire (lowerName d))] := by
  simp only [compileName, List.getD_cons_zero, List.getD_cons_succ, List.getD_nil,
    fromdot_todot hd1, fromdot_closed hd, scanUlongOr_decimal _ (uint32_lt _), ttdparse_nil,
    locparse_nil, bind, Except.bind]

theorem compileKind_mx (env : Env) {d1 d : Name} (hd1 : Valid d1) (hd : Valid d) (dist : UInt16)
    (ttl : UInt32) :
    compileKind env 64 (fun i =>
        [dnsDomainTodot d1, [], closed d, decimal dist.toNat, decimal ttl.toNat].getD i []) =
      .ok [rr (lowerName d1) dnsTMx ttl.toNat (List.replicate 8 0) [0, 0]
        (Rdata.mx dist (lowerName d)).encode] := by
  rw [show compileKind env 64 = compileMx from rfl]
  simp only [compileMx, List.getD_cons_zero, List.getD_cons_succ, List.getD_nil,
    fromdot_todot hd1, qualify_closed, fromdot_closed hd, scanUlongOr_decimal _ (uint32_lt _),
    scanUlongOr_decimal _ (uint16_lt _), ttdparse_nil, locparse_nil, serverAddress_nil, Rdata.encode,
    bind, Except.bind]

/-- The reader takes the first of the three numbers for the port. -/
theorem compileKind_srv (env : Env) {d1 d : Name} (hd1 : Valid d1) (hd : Valid d)
    (first second third : UInt16) (ttl : UInt32) :
    compileKind env 83 (fun i =>
        [dnsDomainTodot d1, [], closed d, decimal first.toNat, decimal second.toNat,
          decimal third.toNat, decimal ttl.toNat].getD i []) =
      .ok [rr (lowerName d1) dnsTSrv ttl.toNat (List.replicate 8 0) [0, 0]
        (Rdata.srv second third first (lowerName d)).encode] := by
  rw [show compileKind env 83 = compileSrv from rfl]
  simp only [compileSrv, List.getD_cons_zero, List.getD_cons_succ, List.getD_nil,
    fromdot_todot hd1, qualify_closed, fromdot_closed hd, scanUlongOr_decimal _ (uint32_lt _),
    scanUlongOr_decimal _ (uint16_lt _), scanUlong_decimal (uint16_lt _), digitRun_decimal,
    decimal_ne_nil, if_false, ttdparse_nil, locparse_nil, serverAddress_nil, Rdata.encode,
    bind, Except.bind]

theorem compileKind_a (env : Env) {d1 : Name} (hd1 : Valid d1) (a b c d : UInt8) (ttl : UInt32) :
    compileKind env 43 (fun i =>
        [dnsDomainTodot d1, ip4Fmt a b c d, decimal ttl.toNat].getD i []) =
      .ok [rr (lowerName d1) dnsTA ttl.toNat (List.replicate 8 0) [0, 0] [a, b, c, d]] := by
  rw [show compileKind env 43 = compileA false from rfl]
  simp only [compileA, List.getD_cons_zero, List.getD_cons_succ, List.getD_nil,
    fromdot_todot hd1, ip4Scan_fmt, scanUlongOr_decimal _ (uint32_lt _), ttdparse_nil, locparse_nil,
    bind, Except.bind, Bool.false_eq_true, if_false]

theorem compileKind_aaaa (env : Env) {d1 : Name} (hd1 : Valid d1) {ip : Bytes}
    (whole : ip.length = 16) (ttl : UInt32) :
    compileKind env 51 (fun i => [dnsDomainTodot d1, ip6FmtFlat ip, decimal ttl.toNat].getD i []) =
      .ok [rr (lowerName d1) dnsTAaaa ttl.toNat (List.replicate 8 0) [0, 0] ip] := by
  rw [show compileKind env 51 = compileAaaa false from rfl]
  simp only [compileAaaa, List.getD_cons_zero, List.getD_cons_succ, List.getD_nil,
    fromdot_todot hd1, ip6ScanFlat_fmt whole, scanUlongOr_decimal _ (uint32_lt _), ttdparse_nil,
    locparse_nil, bind, Except.bind, Bool.false_eq_true, if_false]

theorem compileKind_generic (env : Env) {d1 : Name} (hd1 : Valid d1) {type : Bytes}
    (two : type.length = 2)
    (allowed : ∀ t ∈ [dnsTAxfr, [0, 0], dnsTSoa, dnsTNs, dnsTCname, dnsTPtr, dnsTMx], type ≠ t)
    (s : Bytes) (ttl : UInt32) :
    compileKind env 58 (fun i =>
        [dnsDomainTodot d1, decimal (unbe type), escape printable s, decimal ttl.toNat].getD i []) =
      .ok [rrFinish (lowerName d1) (decide (type ≠ dnsTHashlist))
        (rrStart type ttl.toNat (List.replicate 8 0) [0, 0] ++ s)] := by
  obtain ⟨hpack, hlt⟩ := be16_type two
  rw [show compileKind env 58 = compileGeneric from rfl]
  simp only [compileGeneric, List.getD_cons_zero, List.getD_cons_succ, List.getD_nil,
    fromdot_todot hd1, scanUlong_decimal (Nat.lt_trans hlt (by decide)), hpack,
    lookup_prohibited allowed, @txtparse_escape printable rfl,
    scanUlongOr_decimal _ (uint32_lt _), ttdparse_nil, locparse_nil, bind, Except.bind, ne_eq,
    unbe_eq_hashlist two]

/-! ## What a written record compiles to -/

/-- The comment with the serial adds nothing to the database. -/
theorem compileLine_serial (env : Env) (n : Nat) :
    compileLine env (35 :: (decimal n ++ ascii " auto axfr-get")) = .ok [] := by
  have hlast : ascii " auto axfr-get" = ascii " auto axfr-ge" ++ [116] := rfl
  rw [compileLine, hlast, ← List.append_assoc, ← List.cons_append, trimLine_of_last _ rfl,
    List.cons_append]
  rfl

theorem mem_ascii_serial : (10 : UInt8) ∉ ascii " auto axfr-get" := by decide

/-- **What is written for a record is read back as one record**, with its data as the reader takes
it. -/
theorem compileFile_text (env : Env) (rr : Rr) (noAxfr : rr.type ≠ dnsTAxfr)
    (noZero : rr.type ≠ [0, 0]) : compileFile env rr.text = .ok [rr.stored] := by
  obtain ⟨owner, type, ttl, data, validOwner, two, fits⟩ := rr
  have howner := clean_todot owner
  simp only [Rr.text, Rr.stored]
  simp only [] at noAxfr noZero
  cases data with
  | soa mname rname serial refresh retry expire minimum =>
    obtain ⟨rfl, hm, hr⟩ := fits
    have hcomment : (10 : UInt8) ∉ 35 :: (decimal serial.toNat ++ ascii " auto axfr-get") := by
      intro h
      rcases List.mem_cons.mp h with h | h
      · exact absurd h (by decide)
      · rcases List.mem_append.mp h with h | h
        · exact (clean_decimal _ _ h).2 rfl
        · exact mem_ascii_serial h
    have hline := compileFile_lineText env (by decide : (90 : UInt8) ≠ 10)
      [dnsDomainTodot owner, closed mname, closed rname, decimal serial.toNat,
        decimal refresh.toNat, decimal retry.toNat, decimal expire.toNat, decimal minimum.toNat]
      (by simp [howner, clean_closed, clean_decimal]) ttl.toNat
    have hnewline : ascii " auto axfr-get\n" = ascii " auto axfr-get" ++ [10] := rfl
    simp only []
    rw [hnewline, ← List.append_assoc, ← List.cons_append, List.append_assoc, List.singleton_append,
      compileFile_append env hcomment, compileLine_serial]
    simp only [bind, Except.bind, List.nil_append]
    exact (congrArg (Except.bind · _) (hline.trans
      (compileKind_soa env validOwner hm hr serial refresh retry expire minimum ttl)))
  | name d =>
    obtain ⟨htype, hd⟩ := fits
    simp only []
    split
    · rename_i hns
      subst hns
      exact (compileFile_lineText env (by decide) [dnsDomainTodot owner, [], closed d]
        (by simp [howner, clean_closed, Clean.nil]) _).trans (compileKind_ns env validOwner hd ttl)
    · rename_i hns
      split
      · rename_i hcname
        subst hcname
        exact (compileFile_lineText env (by decide) [dnsDomainTodot owner, closed d]
          (by simp [howner, clean_closed]) _).trans
          (compileName_closed validOwner hd dnsTCname ttl)
      · rename_i hcname
        obtain rfl := (htype.resolve_left hns).resolve_left hcname
        exact (compileFile_lineText env (by decide) [dnsDomainTodot owner, closed d]
          (by simp [howner, clean_closed]) _).trans
          (compileName_closed validOwner hd dnsTPtr ttl)
  | mx dist d =>
    obtain ⟨rfl, hd⟩ := fits
    exact (compileFile_lineText env (by decide)
      [dnsDomainTodot owner, [], closed d, decimal dist.toNat]
      (by simp [howner, clean_closed, clean_decimal, Clean.nil]) _).trans
      (compileKind_mx env validOwner hd dist ttl)
  | srv priority weight port d =>
    obtain ⟨rfl, hd⟩ := fits
    exact (compileFile_lineText env (by decide)
      [dnsDomainTodot owner, [], closed d, decimal priority.toNat, decimal weight.toNat,
        decimal port.toNat]
      (by simp [howner, clean_closed, clean_decimal, Clean.nil]) _).trans
      (compileKind_srv env validOwner hd priority weight port ttl)
  | octets s =>
    obtain ⟨hother, hfour, hsixteen, _⟩ := fits
    simp only []
    split
    · rename_i ha
      have hip : [s.getD 0 0, s.getD 1 0, s.getD 2 0, s.getD 3 0] = s := by
        obtain ⟨a, b, c, d, rfl⟩ := List.length_eq_four.mp (hfour ha)
        rfl
      subst ha
      exact (compileFile_lineText env (by decide) [dnsDomainTodot owner, ip4Fmt _ _ _ _]
        (by simp [howner, clean_ip4Fmt]) _).trans
        ((compileKind_a env validOwner _ _ _ _ ttl).trans (by rw [hip]; rfl))
    · split
      · rename_i haaaa
        subst haaaa
        exact (compileFile_lineText env (by decide) [dnsDomainTodot owner, ip6FmtFlat s]
          (by simp [howner, clean_ip6FmtFlat]) _).trans
          (compileKind_aaaa env validOwner (hsixteen rfl) ttl)
      · have allowed : ∀ t ∈ [dnsTAxfr, [0, 0], dnsTSoa, dnsTNs, dnsTCname, dnsTPtr, dnsTMx],
            type ≠ t := by
          simp only [List.mem_cons, List.not_mem_nil, or_false, not_or] at hother
          simp [noAxfr, noZero, hother]
        exact (compileFile_lineText env (by decide)
          [dnsDomainTodot owner, decimal (unbe type), escape printable s]
          (by simp [howner, clean_decimal, clean_printable]) _).trans
          (compileKind_generic env validOwner two allowed s ttl)

/-! ## What is written for a record -/

theorem Rdata.encode_length {type : Bytes} {data : Rdata} (fits : data.Fits type) :
    data.encode.length < 65536 := by
  cases data with
  | soa mname rname serial refresh retry expire minimum =>
    have hm := fits.2.1.short
    have hr := fits.2.2.short
    simp only [Rdata.encode, List.length_append, wire_length, be32_length]
    omega
  | name d =>
    have hd := fits.2.short
    simp only [Rdata.encode, wire_length]
    omega
  | mx dist d =>
    have hd := fits.2.short
    simp only [Rdata.encode, List.length_append, wire_length, be16_length]
    omega
  | srv priority weight port d =>
    have hd := fits.2.short
    simp only [Rdata.encode, List.length_append, wire_length, be16_length]
    omega
  | octets s => exact fits.2.2.2

theorem soaLines_text {buf : Bytes} {pos : Nat} {owner mname rname : Name}
    (hm : Valid mname) (hr : Valid rname) (serial refresh retry expire minimum ttl : UInt32)
    (there : (Rdata.soa mname rname serial refresh retry expire minimum).encode <+: buf.drop pos) :
    soaLines buf pos owner ttl.toNat =
      some (35 :: (decimal serial.toNat ++ ascii " auto axfr-get\n") ++
        lineText 90 [dnsDomainTodot owner, closed mname, closed rname, decimal serial.toNat,
          decimal refresh.toNat, decimal retry.toNat, decimal expire.toNat, decimal minimum.toNat,
          decimal ttl.toNat]) := by
  obtain ⟨hmname, there⟩ := prefix_of_append there
  obtain ⟨hrname, there⟩ := prefix_of_append there
  rw [wire_length] at hrname there
  rw [wire_length] at there
  have hcopy := dnsPacketCopy_of_field there
  have hlen : (be32 serial.toNat ++ (be32 refresh.toNat ++ (be32 retry.toNat ++
      (be32 expire.toNat ++ be32 minimum.toNat)))).length = 20 := rfl
  rw [hlen] at hcopy
  have number (u : UInt32) : unbe (be32 u.toNat) = u.toNat := unbe_be32 (uint32_lt u)
  simp only [soaLines, dnsPacketGetname_wire hm hmname, dnsPacketGetname_wire hr hrname, hcopy,
    Option.bind_eq_bind, Option.bind_some]
  have hserial : soaNumber (be32 serial.toNat ++ (be32 refresh.toNat ++ (be32 retry.toNat ++
      (be32 expire.toNat ++ be32 minimum.toNat)))) 0 = serial.toNat := number serial
  have hrefresh : soaNumber (be32 serial.toNat ++ (be32 refresh.toNat ++ (be32 retry.toNat ++
      (be32 expire.toNat ++ be32 minimum.toNat)))) 1 = refresh.toNat := number refresh
  have hretry : soaNumber (be32 serial.toNat ++ (be32 refresh.toNat ++ (be32 retry.toNat ++
      (be32 expire.toNat ++ be32 minimum.toNat)))) 2 = retry.toNat := number retry
  have hexpire : soaNumber (be32 serial.toNat ++ (be32 refresh.toNat ++ (be32 retry.toNat ++
      (be32 expire.toNat ++ be32 minimum.toNat)))) 3 = expire.toNat := number expire
  have hminimum : soaNumber (be32 serial.toNat ++ (be32 refresh.toNat ++ (be32 retry.toNat ++
      (be32 expire.toNat ++ be32 minimum.toNat)))) 4 = minimum.toNat := number minimum
  rw [hserial, hrefresh, hretry, hexpire, hminimum]

/-- The line of a record that is no SOA is its text, unless it is refused. -/
theorem recordLine_text (rr : Rr) {buf : Bytes} {pos : Nat} (noSoa : rr.type ≠ dnsTSoa)
    (there : rr.data.encode <+: buf.drop pos) :
    recordLine buf pos rr.owner ⟨rr.type, dnsCIn, rr.ttl.toNat, rr.data.encode.length⟩ =
      if rr.type = dnsTNs ∧ (wildcardBase rr.owner).isSome then none else some rr.text := by
  obtain ⟨owner, type, ttl, data, validOwner, two, fits⟩ := rr
  simp only [Rr.text, recordLine] at noSoa there ⊢
  cases data with
  | soa mname rname serial refresh retry expire minimum => exact absurd fits.1 noSoa
  | name d =>
    have hname := dnsPacketGetname_wire fits.2 there
    rcases fits.1 with rfl | rfl | rfl
    · simp only [if_true, true_and, hname, Option.bind_eq_bind, Option.bind_some]
    · simp only [hname, Option.bind_eq_bind, Option.bind_some, if_true]
      rfl
    · simp only [hname, Option.bind_eq_bind, Option.bind_some, if_true]
      rfl
  | mx dist d =>
    obtain ⟨rfl, hd⟩ := fits
    obtain ⟨hdist, hname⟩ := prefix_of_append there
    have hcopy := dnsPacketCopy_of_field hdist
    rw [be16_length] at hcopy hname
    have hvalue : unbe (be16 dist.toNat) = dist.toNat := unbe_be16 dist.toNat_lt
    simp only [hcopy, dnsPacketGetname_wire hd hname, hvalue, Option.bind_eq_bind, Option.bind_some]
    rfl
  | srv priority weight port d =>
    obtain ⟨rfl, hd⟩ := fits
    obtain ⟨hpriority, there⟩ := prefix_of_append there
    obtain ⟨hweight, there⟩ := prefix_of_append there
    obtain ⟨hport, hname⟩ := prefix_of_append there
    have hcopy := dnsPacketCopy_of_field hpriority
    have hcopy' := dnsPacketCopy_of_field hweight
    have hcopy'' := dnsPacketCopy_of_field hport
    rw [be16_length] at hcopy hcopy' hcopy''
    simp only [be16_length] at hcopy hcopy' hcopy'' hname
    have value (u : UInt16) : unbe (be16 u.toNat) = u.toNat := unbe_be16 u.toNat_lt
    simp only [hcopy, hcopy', hcopy'', dnsPacketGetname_wire hd hname, value, Option.bind_eq_bind,
      Option.bind_some]
    rfl
  | octets s =>
    obtain ⟨hother, hfour, hsixteen, _⟩ := fits
    simp only [List.mem_cons, List.not_mem_nil, or_false, not_or] at hother
    obtain ⟨_, hns, hcname, hptr, hmx, hsrv⟩ := hother
    have hcopy := dnsPacketCopy_of_field there
    simp only [hns, hcname, hptr, hmx, hsrv, false_and, if_false, Rdata.encode] at hcopy ⊢
    by_cases ha : type = dnsTA
    · rw [hfour ha] at hcopy
      simp only [ha, hfour ha, hcopy, and_self, if_true, Option.bind_eq_bind, Option.bind_some]
    · by_cases haaaa : type = dnsTAaaa
      · rw [hsixteen haaaa] at hcopy
        simp only [haaaa, hcopy, if_true, Option.bind_eq_bind, Option.bind_some]
        rfl
      · simp only [ha, haaaa, hcopy, false_and, if_false, Option.bind_eq_bind, Option.bind_some]

theorem soaLines_rr (rr : Rr) {buf : Bytes} {pos : Nat} (soa : rr.type = dnsTSoa)
    (there : rr.data.encode <+: buf.drop pos) :
    soaLines buf pos rr.owner rr.ttl.toNat = some rr.text := by
  obtain ⟨owner, type, ttl, data, validOwner, two, fits⟩ := rr
  simp only [Rr.text] at soa there ⊢
  subst soa
  cases data with
  | soa mname rname serial refresh retry expire minimum =>
    exact soaLines_text fits.2.1 fits.2.2 serial refresh retry expire minimum ttl there
  | name d => exact absurd fits.1 (by decide)
  | mx dist d => exact absurd fits.1 (by decide)
  | srv priority weight port d => exact absurd fits.1 (by decide)
  | octets s => exact absurd List.mem_cons_self fits.1

/-- **What `doit` writes for a record of the zone.** The first SOA and every other record leave
their text behind; the SOA that ends the transfer leaves nothing, and a name server of a wildcard
ends the program. -/
theorem doit_writes (rr : Rr) {zone : Name} {numsoa : Nat} {buf : Bytes} {pos next : Nat}
    (there : rr.At buf pos next) (inZone : dnsDomainSuffix rr.owner zone = true) :
    doit zone numsoa buf pos =
      if rr.type = dnsTSoa then
        some (numsoa + 1, if numsoa + 1 ≥ 2 then [] else rr.text, next)
      else if rr.type = dnsTNs ∧ (wildcardBase rr.owner).isSome then none
      else some (numsoa, rr.text, next) := by
  obtain ⟨p, hname, hthere, rfl⟩ := there
  have hten : (rr.type ++ dnsCIn ++ be32 rr.ttl.toNat ++ be16 rr.data.encode.length).length = 10 := by
    simp only [List.length_append, rr.typeOctets, be32_length, be16_length]
    rfl
  obtain ⟨hfixed, hdata⟩ := prefix_of_append hthere
  have hcopy := dnsPacketCopy_of_field hfixed
  rw [hten] at hcopy hdata
  have hheader := rrHeader_append rr.typeOctets (rfl : dnsCIn.length = 2) (uint32_lt rr.ttl)
    (Rdata.encode_length rr.fits)
  have hfits : ¬ buf.length - (p + 10) < rr.data.encode.length := by
    have hle := hdata.length_le
    rw [List.length_drop] at hle
    omega
  have hwindow := prefix_take hdata
  simp only [doit, hname, hcopy, hheader, if_neg hfits, inZone, not_true_eq_false, if_false, ne_eq]
  split
  · rename_i hsoa
    rw [soaLines_rr rr hsoa hwindow, Option.map_some]
    split <;> rfl
  · rename_i hsoa
    rw [recordLine_text rr hsoa hwindow]
    split <;> rfl

/-! ## What is kept -/

theorem wildcardBase_lowerName (owner : Name) :
    wildcardBase (lowerName owner) = (wildcardBase owner).map lowerName := by
  have star : ∀ b : UInt8, lowerByte b = 42 ↔ b = 42 := by decide +kernel
  have label (l : Label) : lower l = [42] ↔ l = [42] := by
    cases l with
    | nil => simp
    | cons b l => simp [star]
  cases owner with
  | nil => rfl
  | cons l n =>
    rw [lowerName_cons]
    by_cases h : l = [42]
    · subst h; rfl
    · have hlower : lower l ≠ [42] := fun hl => h ((label l).mp hl)
      have none_of_ne {l : Label} {n : Name} (h : l ≠ [42]) : wildcardBase (l :: n) = none := by
        unfold wildcardBase
        split
        · rename_i heq
          exact absurd (List.cons.inj heq).1 h
        · rfl
      rw [none_of_ne h, none_of_ne hlower]
      rfl

theorem wildcardBase_suffix {owner base : Name} (h : wildcardBase owner = some base) :
    base <:+ owner := by
  unfold wildcardBase at h
  split at h
  · cases h; exact List.suffix_cons _ _
  · cases h

theorem Rr.validBase (rr : Rr) : Valid rr.base := by
  unfold Rr.base
  cases h : wildcardBase rr.owner with
  | none => exact rr.validOwner
  | some base => exact rr.validOwner.suffix (wildcardBase_suffix h)

theorem Rr.stored_data (rr : Rr) :
    rr.stored.data = rr.type ++ rr.mark ::
      (be32 rr.ttl.toNat ++ (List.replicate 8 0 ++ rr.data.asRead.encode)) := by
  obtain ⟨a, b, htype⟩ := List.length_eq_two.mp rr.typeOctets
  unfold Rr.stored Rr.mark rrFinish
  rw [wildcardBase_lowerName]
  cases wildcardBase rr.owner with
  | none => simp [rrStart]
  | some base => simp [rrStart, htype]

theorem Rr.stored_key (rr : Rr) :
    rr.stored.key = wire (lowerName rr.base) := by
  have hbase : rr.stored.key = if decide (rr.type ≠ dnsTHashlist) = true then
      lower (wire (lowerName rr.base)) else wire (lowerName rr.base) := by
    unfold Rr.stored Rr.base rrFinish
    rw [wildcardBase_lowerName]
    cases wildcardBase rr.owner <;> rfl
  rw [hbase, lower_wire rr.validBase.lower.labels, lowerName_idem, ite_self]

/-- What a record needs to come through unchanged: a service has its three numbers equal, and the
owner of a bucket record has no capitals. -/
def Rr.Kept (rr : Rr) : Prop :=
  (∀ priority weight port d, rr.data = .srv priority weight port d →
    priority = weight ∧ weight = port) ∧
  (rr.type = dnsTHashlist → lowerName rr.base = rr.base)

theorem be16_inj {u v : UInt16} (h : be16 u.toNat = be16 v.toNat) : u = v := by
  have hvalue := congrArg unbe h
  rw [unbe_be16 u.toNat_lt, unbe_be16 v.toNat_lt] at hvalue
  exact UInt16.toNat_inj.mp hvalue

theorem Rdata.fold_idem (data : Rdata) : data.fold.fold = data.fold := by
  cases data <;> simp only [Rdata.fold, lowerName_idem]

/-- Reading leaves the data as it was up to letter case, unless it mixes up three numbers. -/
theorem Rdata.asRead_iff (data : Rdata) :
    (∃ data' : Rdata, data'.fold = data.fold ∧ data.asRead.encode = data'.encode) ↔
      ∀ priority weight port d, data = .srv priority weight port d →
        priority = weight ∧ weight = port := by
  cases data with
  | srv priority weight port d =>
    constructor
    · rintro ⟨data', hfold, hencode⟩ p w q e heq
      cases heq
      cases data' with
      | srv priority' weight' port' d' =>
        simp only [Rdata.fold, Rdata.srv.injEq] at hfold
        obtain ⟨rfl, rfl, rfl, _⟩ := hfold
        simp only [Rdata.asRead, Rdata.encode] at hencode
        obtain ⟨hfirst, hencode⟩ := List.append_inj hencode rfl
        obtain ⟨hsecond, _⟩ := List.append_inj hencode rfl
        exact ⟨(be16_inj hfirst).symm, (be16_inj hsecond).symm⟩
      | soa => cases hfold
      | name => cases hfold
      | mx => cases hfold
      | octets => cases hfold
    · intro h
      obtain ⟨rfl, rfl⟩ := h priority weight port d rfl
      exact ⟨.srv priority priority priority (lowerName d), by simp [Rdata.fold], rfl⟩
  | soa => exact iff_of_true ⟨_, fold_idem _, rfl⟩ fun _ _ _ _ h => by cases h
  | name => exact iff_of_true ⟨_, fold_idem _, rfl⟩ fun _ _ _ _ h => by cases h
  | mx => exact iff_of_true ⟨_, fold_idem _, rfl⟩ fun _ _ _ _ h => by cases h
  | octets => exact iff_of_true ⟨_, fold_idem _, rfl⟩ fun _ _ _ _ h => by cases h

theorem compiledFrom_text_iff (env : Env) (rr : Rr) (noAxfr : rr.type ≠ dnsTAxfr)
    (noZero : rr.type ≠ [0, 0]) : rr.CompiledFrom env rr.text ↔ rr.Kept := by
  have hlower : lower rr.stored.key = lower (wire rr.base) := by
    rw [Rr.stored_key, lower_wire rr.validBase.lower.labels, lower_wire rr.validBase.labels,
      lowerName_idem]
  have hexact : rr.stored.key = wire rr.base ↔ lowerName rr.base = rr.base := by
    rw [Rr.stored_key, wire_inj rr.validBase.lower rr.validBase]
  have hkey : (if rr.type = dnsTHashlist then rr.stored.key = wire rr.base
      else lower rr.stored.key = lower (wire rr.base)) ↔
      (rr.type = dnsTHashlist → lowerName rr.base = rr.base) := by
    split
    · rename_i h
      rw [hexact, forall_prop_of_true h]
    · rename_i h
      exact iff_of_true hlower fun h' => absurd h' h
  rw [Rr.Kept, ← Rdata.asRead_iff, ← hkey, Rr.CompiledFrom, compileFile_text env rr noAxfr noZero]
  constructor
  · rintro ⟨record, data, hrecord, hfold, hdata, hk⟩
    cases hrecord
    rw [Rr.stored_data, List.append_cancel_left_eq, List.cons.injEq, List.append_cancel_left_eq,
      List.append_cancel_left_eq] at hdata
    exact ⟨⟨data, hfold, hdata.2⟩, hk⟩
  · rintro ⟨⟨data, hfold, hencode⟩, hk⟩
    exact ⟨rr.stored, data, rfl, hfold, by rw [Rr.stored_data, hencode], hk⟩

theorem lineText_ne_nil (kind : UInt8) (fs : List Bytes) : lineText kind fs ≠ [] :=
  List.cons_ne_nil _ _

theorem Rr.text_ne_nil (rr : Rr) : rr.text ≠ [] := by
  unfold Rr.text
  split
  · exact List.cons_ne_nil _ _
  · split
    · exact lineText_ne_nil _ _
    · split <;> exact lineText_ne_nil _ _
  · exact lineText_ne_nil _ _
  · exact lineText_ne_nil _ _
  · split
    · exact lineText_ne_nil _ _
    · split <;> exact lineText_ne_nil _ _

/-- **The round trip of a zone transfer.** A record at or below the zone is written, unless it is a
later SOA or a name server of a wildcard; and what is written for it compiles to that one record
exactly when it is no service with unequal numbers and no bucket record with capitals in its
owner. -/
theorem doit_round_trip (env : Env) (rr : Rr) (noAxfr : rr.type ≠ dnsTAxfr)
    (noZero : rr.type ≠ [0, 0]) {zone : Name} {numsoa : Nat} {buf : Bytes} {pos next : Nat}
    (there : rr.At buf pos next) (inZone : dnsDomainSuffix rr.owner zone = true) :
    ((∃ n text, text ≠ [] ∧ doit zone numsoa buf pos = some (n, text, next)) ↔
      (rr.type = dnsTSoa → numsoa = 0) ∧
        ¬ (rr.type = dnsTNs ∧ (wildcardBase rr.owner).isSome)) ∧
    ∀ n text len, doit zone numsoa buf pos = some (n, text, len) → text ≠ [] →
      (rr.CompiledFrom env text ↔ rr.Kept) := by
  have hwrites := @doit_writes rr zone numsoa buf pos next there inZone
  have hkept := compiledFrom_text_iff env rr noAxfr noZero
  by_cases hsoa : rr.type = dnsTSoa
  · have hns : ¬ (rr.type = dnsTNs ∧ (wildcardBase rr.owner).isSome) := fun h =>
      absurd (hsoa.symm.trans h.1) (by decide)
    rw [if_pos hsoa] at hwrites
    rw [hwrites, forall_prop_of_true hsoa, and_iff_left hns]
    by_cases hlater : numsoa + 1 ≥ 2
    · rw [if_pos hlater]
      refine ⟨⟨?_, fun h => by omega⟩, ?_⟩
      · rintro ⟨n, text, hne, heq⟩
        cases heq
        exact absurd rfl hne
      · rintro n text len heq hne
        cases heq
        exact absurd rfl hne
    · rw [if_neg hlater]
      refine ⟨⟨fun _ => by omega, fun _ => ⟨_, _, rr.text_ne_nil, rfl⟩⟩, ?_⟩
      rintro n text len heq _
      cases heq
      exact hkept
  · rw [if_neg hsoa] at hwrites
    rw [hwrites, and_iff_right fun h => absurd h hsoa]
    by_cases hns : rr.type = dnsTNs ∧ (wildcardBase rr.owner).isSome
    · rw [if_pos hns]
      refine ⟨⟨?_, fun h => absurd hns h⟩, fun _ _ _ h => by cases h⟩
      rintro ⟨_, _, _, heq⟩
      cases heq
    · rw [if_neg hns]
      refine ⟨⟨fun _ => hns, fun _ => ⟨_, _, rr.text_ne_nil, rfl⟩⟩, ?_⟩
      rintro n text len heq _
      cases heq
      exact hkept

/-- The service record `_a SRV 1 2 3 b`. -/
def service : Rr where
  owner := [ascii "_a"]
  type := dnsTSrv
  ttl := 60
  data := .srv 1 2 3 [ascii "b"]
  validOwner := ⟨fun l hl => by rw [List.mem_singleton.mp hl]; exact ⟨by decide, by decide⟩, by decide⟩
  typeOctets := rfl
  fits := ⟨rfl, fun l hl => by rw [List.mem_singleton.mp hl]; exact ⟨by decide, by decide⟩, by decide⟩

/-- The service record in a message, behind the header. -/
def serviceMessage : Bytes :=
  List.replicate 12 0 ++ (wire service.owner ++ (service.type ++ dnsCIn ++ be32 service.ttl.toNat ++
    be16 service.data.encode.length) ++ service.data.encode)

theorem service_at : service.At serviceMessage 12 35 :=
  ⟨16, by decide, ⟨[], by decide⟩, by decide⟩

theorem doit_round_trip_service :
    ((∃ n text, text ≠ [] ∧ doit [] 0 serviceMessage 12 = some (n, text, 35)) ↔
      (service.type = dnsTSoa → 0 = 0) ∧
        ¬ (service.type = dnsTNs ∧ (wildcardBase service.owner).isSome)) ∧
    ∀ n text len, doit [] 0 serviceMessage 12 = some (n, text, len) → text ≠ [] →
      (service.CompiledFrom ⟨1, 0⟩ text ↔ service.Kept) :=
  doit_round_trip ⟨1, 0⟩ service (by decide) (by decide) service_at (by decide)

/-- The line written for the service is read back with its numbers out of order. -/
theorem service_misread : ∃ text, doit [] 0 serviceMessage 12 = some (0, text, 35) ∧
    ¬ service.CompiledFrom ⟨1, 0⟩ text := by
  refine ⟨service.text, doit_writes service service_at (by decide), fun h => ?_⟩
  have hkept := (compiledFrom_text_iff ⟨1, 0⟩ service (by decide) (by decide)).mp h
  exact absurd (hkept.1 1 2 3 [ascii "b"] rfl).1 (by decide)

end TinyDnssec.Axfr
