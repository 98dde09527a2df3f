import TinyDnssec.Axfr
import TinyDnssec.Data.Tlsa
import TinyDnssec.Ip6

/-!
# tinydns-edit

A line is added to a data file, which is copied through while its lines are looked at. A host is
refused when its name or address is in use already, and a server gets a letter that is free.

The address of an IPv6 host is compared with the octets at `ip`, which belong to IPv4 addresses and
are never written for such a host, where `ip6` was read; and it is read by `ip6_scan`, from a field in
which the address has no colons.
-/

namespace TinyDnssec.Edit

open Octets Loop Data Axfr

/-! ## `tinydns-edit.c` -/

/-- How the program ends without a new file: the exit code, and what it says. -/
structure Refusal where
  code : Nat
  why : String
deriving DecidableEq

def nomem : Refusal := ⟨111, "out of memory"⟩
def hostUsed : Refusal := ⟨100, "host name already used"⟩
def ipUsed : Refusal := ⟨100, "IP address already used"⟩
def ip6Used : Refusal := ⟨100, "IPv6 address already used"⟩
def tooMany : Refusal := ⟨100, "too many records for that domain"⟩

/-- The values of `mode`: `ns`, `childns`, `host`, `host6`, `alias`, `alias6` and `mx`. -/
def modes : List UInt8 := [46, 38, 61, 54, 43, 51, 64]

/-- The arguments behind `add`. -/
structure Request where
  mode : UInt8
  target : Name
  /-- `targetip`, or `targetip6` -/
  targetip : Bytes
  known : mode ∈ modes
  valid : Valid target
  size : targetip.length = if mode = 54 ∨ mode = 51 then 16 else 4

/-- `ch` and `.ns.` or `.mx.` in front of the domain. -/
def candidate (kind : String) (target : Name) (i : Nat) : Bytes :=
  UInt8.ofNat (97 + i) :: (ascii kind ++ dnsDomainTodot target)

def fromdot (s : Bytes) : Except Refusal Name :=
  match dnsDomainFromdot s with
  | none => .error nomem
  | some d => .ok d

def namesGo (kind : String) (target : Name) : List Nat → Except Refusal (List Name)
  | [] => .ok []
  | i :: is => do
    let d ← fromdot (candidate kind target i)
    let more ← namesGo kind target is
    .ok (d :: more)

/-- The array `names`. -/
def names (kind : String) (target : Name) : Except Refusal (List Name) :=
  namesGo kind target (List.range 26)

/-- What has been written, and what has been seen of the servers of the domain. -/
structure State where
  out : Bytes
  used : List Bool
  ttl : Nat

/-- A `=` line. -/
def checkHost (target : Name) (targetip : Bytes) (f : Nat → Bytes) : Except Refusal Unit := do
  let d1 ← fromdot (f 0)
  if dnsDomainEqual d1 target then .error hostUsed
  else if ip4Scan (f 1) = some targetip then .error ipUsed
  else .ok ()

/-- A `6` line. `past` are the twelve octets behind `ip`, which itself holds zeros. -/
def checkHost6 (x : Ip6.Xlong) (past : Bytes) (target : Name) (targetip6 : Bytes)
    (f : Nat → Bytes) : Except Refusal Unit := do
  let d1 ← fromdot (f 0)
  if dnsDomainEqual d1 target then .error hostUsed
  else if (Ip6.ip6Scan x (f 1)).isSome ∧ [0, 0, 0, 0] ++ past = targetip6 then .error ip6Used
  else .ok ()

/-- A line of a server, with its ttl in field `ttlAt`. -/
def markServer (kind : String) (ttlAt ttlDefault : Nat) (names : List Name) (target : Name)
    (f : Nat → Bytes) (s : State) : Except Refusal State := do
  let d1 ← fromdot (f 0)
  if dnsDomainEqual d1 target then do
    let d2 ← fromdot (qualify kind (f 0) (f 2))
    let s := { s with ttl := scanUlongOr ttlDefault (f ttlAt) }
    match names.findIdx? (dnsDomainEqual d2 ·) with
    | some i => .ok { s with used := s.used.set i true }
    | none => .ok s
  else .ok s

section

variable (x : Ip6.Xlong) (behind : Nat → Bytes) (req : Request)

/-- The fields of a line, when it is one of the mode. -/
def lineFields (mode : UInt8) (line : Bytes) : Option (Nat → Bytes) :=
  match trimLine line with
  | c :: rest => if c ≠ 35 ∧ c = mode then some (fields rest) else none
  | [] => none

/-- What is done with a line of the mode. -/
def checkFields (names : List Name) (n : Nat) (f : Nat → Bytes) (s : State) :
    Except Refusal State :=
  if req.mode = 46 ∨ req.mode = 38 then markServer ".ns." 3 ttlNs names req.target f s
  else if req.mode = 61 then checkHost req.target req.targetip f >>= fun _ => .ok s
  else if req.mode = 54 then
    checkHost6 x (behind n) req.target req.targetip f >>= fun _ => .ok s
  else if req.mode = 64 then markServer ".mx." 4 ttlPositive names req.target f s
  else .ok s

def checkLine (names : List Name) (n : Nat) (line : Bytes) (s : State) : Except Refusal State :=
  match lineFields req.mode line with
  | some f => checkFields x behind req names n f s
  | none => .ok s

/-- The main loop: each line is copied, the last one with a newline if it has something in it. -/
def scan (names : List Name) : Nat → List Bytes → State → Except Refusal State
  | _, [], s => .ok s
  | n, line :: lines, s =>
    let newline : Bytes := if lines = [] ∧ line = [] then [] else [10]
    checkLine x behind req names n line { s with out := s.out ++ (line ++ newline) } >>=
      scan names (n + 1) lines

/-- `.ns.` or `.mx.`, for the modes that have one. -/
def serverKind (mode : UInt8) : Option String :=
  if mode = 46 ∨ mode = 38 then some ".ns." else if mode = 64 then some ".mx." else none

/-- The text of the address. -/
def addressText : Bytes :=
  if req.mode = 54 ∨ req.mode = 51 then ip6FmtFlat req.targetip
  else ip4Fmt (req.targetip.getD 0 0) (req.targetip.getD 1 0) (req.targetip.getD 2 0)
    (req.targetip.getD 3 0)

/-- The fields between the address and the ttl: the letter of a server, and the distance of a mail
server. -/
def serverFields (used : List Bool) : Except Refusal (List Bytes) :=
  if (serverKind req.mode).isSome then
    match used.findIdx? (· = false) with
    | none => .error tooMany
    | some i => .ok ([UInt8.ofNat (97 + i)] :: if req.mode = 64 then [[]] else [])
  else .ok []

def newLine (middle : List Bytes) (ttl : Nat) : Bytes :=
  lineText req.mode (dnsDomainTodot req.target :: addressText req :: (middle ++ [decimal ttl]))

def namesFor : Except Refusal (List Name) :=
  match serverKind req.mode with
  | some kind => names kind req.target
  | none => .ok []

/-- `main`, behind its arguments: the new data file. `behind` says which octets stand behind `ip`
when a line is looked at. -/
def edit (text : Bytes) : Except Refusal Bytes := do
  let names ← namesFor req
  let ttl := if req.mode = 46 ∨ req.mode = 38 then ttlNs else ttlPositive
  let s ← scan x behind req names 0 (split 10 text) ⟨[], List.replicate 26 false, ttl⟩
  let middle ← serverFields req s.used
  .ok (s.out ++ newLine req middle s.ttl)

/-- The data file afterwards: the new file takes its place at the end, or not at all. -/
def dataAfter (text : Bytes) : Bytes :=
  match edit x behind req text with
  | .ok new => new
  | .error _ => text

end

/-! ## What is promised -/

/-- The lines of the mode: their numbers and fields. -/
def kindLines (mode : UInt8) (lines : List Bytes) (n : Nat) : List (Nat × (Nat → Bytes)) :=
  (lines.zipIdx n).filterMap fun (line, n) => (lineFields mode line).map (n, ·)

def HasName (target : Name) (f : Nat → Bytes) : Prop :=
  ∃ d1, dnsDomainFromdot (f 0) = some d1 ∧ lowerName d1 = lowerName target

/-- The line is for the address, as `tinydns-data` reads it. -/
def HasAddress (req : Request) (f : Nat → Bytes) : Prop :=
  if req.mode = 54 then ip6ScanFlat (f 1) = some req.targetip else ip4Scan (f 1) = some req.targetip

/-- Some line of the mode has the name or the address. -/
def Used (req : Request) (text : Bytes) : Prop :=
  ∃ e ∈ kindLines req.mode (split 10 text) 0, HasName req.target e.2 ∨ HasAddress req e.2

/-- The newline that is missing at the end of a file. -/
def missing (text : Bytes) : Bytes :=
  if text.getLast? = none ∨ text.getLast? = some 10 then [] else [10]

/-- `tinydns-data` compiles the line to a record of the name and the address. -/
def CompilesTo (req : Request) (line : Bytes) : Prop :=
  ∀ env : Env, ∃ records, compileLine env line = .ok records ∧
    rr (lowerName req.target) (if req.mode = 54 then dnsTAaaa else dnsTA) 86400 (List.replicate 8 0)
      [0, 0] req.targetip ∈ records

section

variable (x : Ip6.Xlong) (behind : Nat → Bytes) (req : Request) (text : Bytes)

/-- A host whose name or address is in use is refused, and any other one gets its line. -/
structure AddsOrRefuses : Prop where
  refuses : Used req text → (∃ e, edit x behind req text = .error e) ∧
    dataAfter x behind req text = text
  adds : ¬ Used req text → ∃ line, edit x behind req text = .ok (text ++ missing text ++ line ++ [10]) ∧
    10 ∉ line ∧ CompilesTo req line

/-- The new server's name is none of those the domain has. -/
def FreshName (kind : String) : Prop :=
  ∀ new, edit x behind req text = .ok new → ∃ (letter : UInt8) (ttl : Nat) (chosen : Name),
    new = text ++ missing text ++
        newLine req ([letter] :: if req.mode = 64 then [[]] else []) ttl ∧
      dnsDomainFromdot (qualify kind (dnsDomainTodot req.target) [letter]) = some chosen ∧
      ∀ e ∈ kindLines req.mode (split 10 text) 0, HasName req.target e.2 →
        ∀ d2, dnsDomainFromdot (qualify kind (e.2 0) (e.2 2)) = some d2 →
          lowerName d2 ≠ lowerName chosen

/-- What is promised of a request, by its mode. -/
def Promise : Prop :=
  if req.mode = 61 ∨ req.mode = 54 then AddsOrRefuses x behind req text
  else ∀ kind, serverKind req.mode = some kind → FreshName x behind req text kind

/-- A line of an IPv6 host ends the program for another reason than the name or address: the name
cannot be read, or what is compared happens to be the address. -/
def Stray (e : Nat × (Nat → Bytes)) : Prop :=
  dnsDomainFromdot (e.2 0) = none ∨
    (Ip6.ip6Scan x (e.2 1)).isSome = true ∧ [0, 0, 0, 0] ++ behind e.1 = req.targetip

/-- The promise is kept: for an IPv4 host when a line has the name or the address or all names can be
read; for an IPv6 host when a line has the name, or when lines with the address and stray ones are
both there or both not; and for all others. -/
def Meets : Prop :=
  if req.mode = 61 then
    Used req text ∨
      ∀ e ∈ kindLines req.mode (split 10 text) 0, (dnsDomainFromdot (e.2 0)).isSome = true
  else if req.mode = 54 then
    (∃ e ∈ kindLines req.mode (split 10 text) 0, HasName req.target e.2) ∨
      ((∃ e ∈ kindLines req.mode (split 10 text) 0, HasAddress req e.2) ↔
        ∃ e ∈ kindLines req.mode (split 10 text) 0, Stray x behind req e)
  else True

end

/-! ## Copying -/

/-- What the main loop writes of the lines. -/
def copied : List Bytes → Bytes
  | [] => []
  | line :: lines => line ++ (if lines = [] ∧ line = [] then [] else [10]) ++ copied lines

theorem missing_cons {c : UInt8} {text : Bytes} (some : text ≠ []) :
    missing (c :: text) = missing text := by
  unfold missing
  cases text with
  | nil => exact absurd rfl some
  | cons d text => rw [List.getLast?_cons_cons]

theorem copied_split (text : Bytes) : copied (split 10 text) = text ++ missing text := by
  induction text with
  | nil => rfl
  | cons c text ih =>
    have some := split_ne_nil 10 text
    unfold split
    by_cases newline : c = 10
    · rw [if_pos newline, newline, copied, if_neg fun h => some h.1, ih]
      by_cases empty : text = []
      · rw [empty]
        rfl
      · rw [missing_cons empty]
        rfl
    · rw [if_neg newline]
      cases hsplit : split 10 text with
      | nil => exact absurd hsplit some
      | cons f fs =>
        rw [hsplit, copied] at ih
        change c :: f ++ (if fs = [] ∧ c :: f = [] then [] else [10]) ++ copied fs = _
        rw [if_neg fun h => List.cons_ne_nil _ _ h.2]
        by_cases empty : text = []
        · subst empty
          cases hsplit
          unfold missing
          rw [if_neg]
          · rfl
          · rintro (h | h)
            · cases h
            · exact newline (Option.some_inj.mp h)
        · have more : ¬ (fs = [] ∧ f = []) := by
            rintro ⟨rfl, rfl⟩
            rw [if_pos ⟨rfl, rfl⟩] at ih
            exact empty (List.append_eq_nil_iff.mp ih.symm).1
          rw [if_neg more] at ih
          rw [missing_cons empty, List.cons_append, List.cons_append, List.cons_append, ih]

/-! ## The lines of a host -/

section

variable {x : Ip6.Xlong} {behind : Nat → Bytes} {req : Request}

theorem fromdot_cases (s : Bytes) :
    (∃ d, dnsDomainFromdot s = some d ∧ fromdot s = .ok d) ∨
      dnsDomainFromdot s = none ∧ fromdot s = .error nomem := by
  unfold fromdot
  cases dnsDomainFromdot s with
  | none => exact .inr ⟨rfl, rfl⟩
  | some d => exact .inl ⟨d, rfl, rfl⟩

/-- What ends the program at a line of a host. -/
def Refuses (x : Ip6.Xlong) (behind : Nat → Bytes) (req : Request) (e : Nat × (Nat → Bytes)) : Prop :=
  dnsDomainFromdot (e.2 0) = none ∨ HasName req.target e.2 ∨
    if req.mode = 54 then (Ip6.ip6Scan x (e.2 1)).isSome = true ∧ [0, 0, 0, 0] ++ behind e.1 = req.targetip
    else ip4Scan (e.2 1) = some req.targetip

theorem hasName_iff {target d1 : Name} {f : Nat → Bytes} (valid : Valid target)
    (read : dnsDomainFromdot (f 0) = some d1) :
    HasName target f ↔ dnsDomainEqual d1 target = true := by
  rw [dnsDomainEqual_iff (dnsDomainFromdot_valid read) valid]
  unfold HasName
  rw [read]
  constructor
  · rintro ⟨d, same, equal⟩
    cases same
    exact equal
  · exact fun equal => ⟨d1, rfl, equal⟩

/-- Both kinds of hosts are checked in one way, but for what is said of the address. -/
theorem check_spec {target : Name} (valid : Valid target) (f : Nat → Bytes) {P : Prop} [Decidable P]
    (why : Refusal) (s : State) :
    (dnsDomainFromdot (f 0) = none ∨ HasName target f ∨ P → ∃ e, ((do
      let d1 ← fromdot (f 0)
      if dnsDomainEqual d1 target then .error hostUsed
      else if P then .error why
      else .ok () : Except Refusal Unit) >>= fun _ => .ok s) = .error e) ∧
    (¬ (dnsDomainFromdot (f 0) = none ∨ HasName target f ∨ P) → ((do
      let d1 ← fromdot (f 0)
      if dnsDomainEqual d1 target then .error hostUsed
      else if P then .error why
      else .ok () : Except Refusal Unit) >>= fun _ => .ok s) = .ok s) := by
  obtain ⟨d, read, run⟩ | ⟨none, run⟩ := fromdot_cases (f 0)
  · rw [run, read, hasName_iff valid read]
    by_cases named : dnsDomainEqual d target = true
    · refine ⟨fun _ => ⟨hostUsed, ?_⟩, fun no => absurd (.inr (.inl named)) no⟩
      simp only [bind, Except.bind, if_pos named]
    · by_cases there : P
      · refine ⟨fun _ => ⟨why, ?_⟩, fun no => absurd (.inr (.inr there)) no⟩
        simp only [bind, Except.bind, if_neg named, if_pos there]
      · refine ⟨fun bad => ?_, fun _ => ?_⟩
        · rcases bad with none | named' | there'
          · cases none
          · exact absurd named' named
          · exact absurd there' there
        · simp only [bind, Except.bind, if_neg named, if_neg there]
  · rw [run]
    exact ⟨fun _ => ⟨nomem, rfl⟩, fun no => absurd (.inl none) no⟩

/-- A line of a host ends the program, or changes nothing. -/
theorem checkFields_host (host : req.mode = 61 ∨ req.mode = 54) (names : List Name) (n : Nat)
    (f : Nat → Bytes) (s : State) :
    (Refuses x behind req (n, f) → ∃ e, checkFields x behind req names n f s = .error e) ∧
      (¬ Refuses x behind req (n, f) → checkFields x behind req names n f s = .ok s) := by
  unfold checkFields Refuses
  rcases host with host | host
  · rw [host, if_neg (by decide), if_pos rfl, if_neg (by decide)]
    exact check_spec req.valid f ipUsed s
  · have server : ¬ ((54 : UInt8) = 46 ∨ (54 : UInt8) = 38) := by decide
    have other : ¬ (54 : UInt8) = 61 := by decide
    rw [host, if_neg server, if_neg other, if_pos rfl, if_pos rfl]
    exact check_spec req.valid f ip6Used s

theorem kindLines_cons (mode : UInt8) (line : Bytes) (lines : List Bytes) (n : Nat) :
    kindLines mode (line :: lines) n =
      ((lineFields mode line).map (n, ·)).toList ++ kindLines mode lines (n + 1) := by
  unfold kindLines
  rw [List.zipIdx_cons, List.filterMap_cons]
  simp only []
  cases lineFields mode line with
  | none => rfl
  | some f => rfl

/-- **The main loop for a host**: it copies the file, unless a line ends the program. -/
theorem scan_host (host : req.mode = 61 ∨ req.mode = 54) (names : List Name) (n : Nat)
    (lines : List Bytes) (s : State) :
    ((∃ e ∈ kindLines req.mode lines n, Refuses x behind req e) →
      ∃ e, scan x behind req names n lines s = .error e) ∧
    ((∀ e ∈ kindLines req.mode lines n, ¬ Refuses x behind req e) →
      scan x behind req names n lines s = .ok { s with out := s.out ++ copied lines }) := by
  induction lines generalizing n s with
  | nil =>
    refine ⟨?_, fun _ => ?_⟩
    · rintro ⟨e, none, -⟩
      cases none
    · rw [copied, List.append_nil]
      rfl
  | cons line lines ih =>
    rw [kindLines_cons]
    simp only [scan]
    rw [copied]
    generalize (if lines = [] ∧ line = [] then [] else [10] : Bytes) = newline
    obtain ⟨bad, good⟩ := ih (n + 1) { s with out := s.out ++ (line ++ newline) }
    unfold checkLine
    rw [List.append_assoc] at good
    cases hline : lineFields req.mode line with
    | none =>
      simp only [Option.map_none, Option.toList_none, List.nil_append]
      exact ⟨bad, good⟩
    | some f =>
      obtain ⟨refuses, passes⟩ := @checkFields_host x behind req host names n f
        { s with out := s.out ++ (line ++ newline) }
      simp only [Option.map_some, Option.toList_some, List.singleton_append, List.exists_mem_cons_iff,
        List.forall_mem_cons]
      constructor
      · intro some
        by_cases here : Refuses x behind req (n, f)
        · obtain ⟨e, failed⟩ := refuses here
          rw [failed]
          exact ⟨e, rfl⟩
        · rw [passes here]
          exact bad (some.resolve_left here)
      · rintro ⟨here, rest⟩
        rw [passes here]
        exact good rest

/-! ## The new line of a host -/

theorem host_fields (host : req.mode = 61 ∨ req.mode = 54) :
    serverKind req.mode = none ∧ ¬ (req.mode = 46 ∨ req.mode = 38) := by
  rcases host with host | host
  · rw [host]
    decide
  · rw [host]
    decide

theorem octets_four {ip : Bytes} (four : ip.length = 4) :
    [ip.getD 0 0, ip.getD 1 0, ip.getD 2 0, ip.getD 3 0] = ip := by
  match ip, four with
  | [a, b, c, d], _ => rfl

/-- The line without its newline. -/
def hostLine (req : Request) (ttl : Nat) : Bytes :=
  req.mode :: join 58 ([dnsDomainTodot req.target, addressText req] ++ [decimal ttl])

theorem clean_addressText (req : Request) : Clean (addressText req) := by
  unfold addressText
  split
  · exact clean_ip6FmtFlat _
  · exact clean_ip4Fmt _ _ _ _

theorem hostLine_compiles (host : req.mode = 61 ∨ req.mode = 54) :
    CompilesTo req (hostLine req 86400) := by
  intro env
  have clean : ∀ f ∈ [dnsDomainTodot req.target, addressText req], Clean f := by
    intro f hf
    rcases List.mem_cons.mp hf with rfl | hf
    · exact clean_todot _
    · rw [List.mem_singleton.mp hf]
      exact clean_addressText req
  have read := compileLine_join env req.mode clean 86400
  have size := req.size
  have day : scanUlongOr ttlPositive (decimal 86400) = 86400 := scanUlongOr_decimal _ (by decide)
  unfold hostLine
  rw [read]
  rcases host with host | host
  · have v4 : ¬ ((61 : UInt8) = 54 ∨ (61 : UInt8) = 51) := by decide
    rw [host, if_neg v4] at size
    have address : ip4Scan (addressText req) = some req.targetip := by
      unfold addressText
      rw [host, if_neg v4, ip4Scan_fmt, octets_four size]
    rw [host]
    let reverse : CdbRecord := rr (dnsName4Domain req.targetip) dnsTPtr 86400 (List.replicate 8 0)
      [0, 0] (wire (lowerName req.target))
    refine ⟨_ :: [reverse], ?_, List.mem_cons_self⟩
    rw [show compileKind env 61 = compileA true from rfl]
    simp only [compileA, List.cons_append, List.nil_append, List.getD_cons_zero, List.getD_cons_succ,
      List.getD_nil, Axfr.fromdot_todot req.valid, address, day, ttdparse_nil, locparse_nil, bind,
      Except.bind]
    rfl
  · have v6 : (54 : UInt8) = 54 ∨ (54 : UInt8) = 51 := .inl rfl
    rw [host, if_pos v6] at size
    have address : ip6ScanFlat (addressText req) = some req.targetip := by
      unfold addressText
      rw [host, if_pos v6, ip6ScanFlat_fmt size]
    rw [host]
    let reverse (last : String) : CdbRecord := rr (dnsName6Domain req.targetip last) dnsTPtr 86400
      (List.replicate 8 0) [0, 0] (wire (lowerName req.target))
    refine ⟨_ :: [reverse "arpa", reverse "int"], ?_, List.mem_cons_self⟩
    rw [show compileKind env 54 = compileAaaa true from rfl]
    simp only [compileAaaa, List.cons_append, List.nil_append, List.getD_cons_zero,
      List.getD_cons_succ, List.getD_nil, Axfr.fromdot_todot req.valid, address, day, ttdparse_nil,
      locparse_nil, bind, Except.bind]
    rfl

theorem hostLine_newline (req : Request) (ttl : Nat) : 10 ∉ hostLine req ttl := by
  intro newline
  unfold hostLine at newline
  rcases List.mem_cons.mp newline with mode | newline
  · have known := req.known
    rw [← mode] at known
    exact absurd known (by decide)
  · rcases mem_join newline with separator | ⟨f, hf, newline⟩
    · exact absurd separator (by decide)
    · have clean : Clean f := by
        simp only [List.cons_append, List.nil_append, List.mem_cons, List.not_mem_nil, or_false] at hf
        rcases hf with rfl | rfl | rfl
        · exact clean_todot _
        · exact clean_addressText req
        · exact clean_decimal ttl
      exact (clean 10 newline).2 rfl

/-- **The program for a host**: the file with its new line, unless a line of the kind refuses it. -/
theorem edit_host (host : req.mode = 61 ∨ req.mode = 54) (text : Bytes) :
    ((∃ e ∈ kindLines req.mode (split 10 text) 0, Refuses x behind req e) →
      ∃ e, edit x behind req text = .error e) ∧
    ((∀ e ∈ kindLines req.mode (split 10 text) 0, ¬ Refuses x behind req e) →
      edit x behind req text = .ok (text ++ missing text ++ hostLine req 86400 ++ [10])) := by
  obtain ⟨unserved, day⟩ := host_fields host
  obtain ⟨bad, good⟩ := @scan_host x behind req host [] 0 (split 10 text)
    ⟨[], List.replicate 26 false, 86400⟩
  have run : edit x behind req text =
      (scan x behind req [] 0 (split 10 text) ⟨[], List.replicate 26 false, 86400⟩ >>= fun s =>
        .ok (s.out ++ newLine req [] s.ttl)) := by
    unfold edit namesFor serverFields
    rw [unserved, if_neg day]
    rfl
  rw [run]
  constructor
  · intro some
    obtain ⟨e, failed⟩ := bad some
    rw [failed]
    exact ⟨e, rfl⟩
  · intro none
    rw [good none, copied_split, List.append_assoc]
    rfl

/-- A host's promise is kept exactly when the lines that should refuse it are there with the lines
that do. -/
theorem addsOrRefuses_iff (host : req.mode = 61 ∨ req.mode = 54) (text : Bytes) :
    AddsOrRefuses x behind req text ↔
      (Used req text ↔ ∃ e ∈ kindLines req.mode (split 10 text) 0, Refuses x behind req e) := by
  obtain ⟨bad, good⟩ := @edit_host x behind req host text
  constructor
  · intro kept
    constructor
    · intro used
      obtain ⟨⟨e, failed⟩, -⟩ := kept.refuses used
      by_contra none
      rw [good fun e he refuses => none ⟨e, he, refuses⟩] at failed
      cases failed
    · intro some
      by_contra unused
      obtain ⟨line, added, -⟩ := kept.adds unused
      obtain ⟨e, failed⟩ := bad some
      rw [failed] at added
      cases added
  · intro same
    constructor
    · intro used
      obtain ⟨e, failed⟩ := bad (same.mp used)
      refine ⟨⟨e, failed⟩, ?_⟩
      unfold dataAfter
      rw [failed]
    · intro unused
      refine ⟨hostLine req 86400, good fun e he refuses => unused (same.mpr ⟨e, he, refuses⟩),
        hostLine_newline req 86400, hostLine_compiles host⟩

theorem host_iff (host : req.mode = 61 ∨ req.mode = 54) (text : Bytes) :
    AddsOrRefuses x behind req text ↔ Meets x behind req text := by
  have four (n a b : Prop) : (n ∨ a ↔ b ∨ n ∨ a) ↔ (n ∨ a) ∨ ¬ b := by
    by_cases hn : n
    · simp [hn]
    · by_cases ha : a
      · simp [ha]
      · simp [hn, ha]
  have six (n a b s : Prop) : (n ∨ a ↔ b ∨ n ∨ s) ↔ n ∨ (a ↔ b ∨ s) := by
    by_cases hn : n
    · simp [hn]
    · simp [hn]
  rw [addsOrRefuses_iff host]
  unfold Meets Used Refuses HasAddress
  rcases host with host | host
  · have v4 : ¬ (61 : UInt8) = 54 := by decide
    simp only [host, if_neg v4, if_true, and_or_left, exists_or]
    rw [four]
    refine or_congr_right ?_
    push Not
    simp only [Option.isSome_iff_ne_none]
  · have v6 : ¬ (54 : UInt8) = 61 := by decide
    unfold Stray
    simp only [host, if_neg v6, if_true, and_or_left, exists_or]
    exact six _ _ _ _

end

/-! ## The names of servers -/

section

variable {req : Request} {kind : String}

/-- A letter of the alphabet. -/
def letter (i : Nat) : UInt8 := UInt8.ofNat (97 + i)

theorem letter_text : ∀ i, i < 26 → todotLabel [letter i] = [letter i] := by
  decide +kernel

theorem letter_undotted : ∀ i, i < 26 → 46 ∉ [letter i] := by
  decide +kernel

theorem letter_lower : ∀ i, i < 26 → lower [letter i] = [letter i] := by
  decide +kernel

theorem letter_inj : ∀ i, i < 26 → ∀ j, j < 26 → letter i = letter j → i = j := by
  decide +kernel

/-- The label of a kind of server. -/
def kindLabel (kind : String) : Label := ((ascii kind).drop 1).take 2

/-- The name that a letter stands for. -/
def serverName (kind : String) (target : Name) (i : Nat) : Name :=
  [letter i] :: kindLabel kind :: lowerName target

/-- A label in front of a text is a label in front of the name that is read from it. -/
theorem fromdot_label {l : Label} {text : Bytes} {d : Name} (begun : l ≠ []) (short : l.length ≤ 63)
    (read : dnsDomainFromdot (todotLabel l ++ 46 :: text) = some d) :
    ∃ tail, dnsDomainFromdot text = some tail ∧ d = lower l :: tail := by
  unfold dnsDomainFromdot at read ⊢
  have fits : ([] : Label).length + l.length ≤ 63 := by
    rw [List.length_nil]
    omega
  rw [fromdotGo_todotLabel l _ fits, unescape_plain (by decide), fromdotGo_sep] at read
  obtain ⟨flushed, flush, read⟩ := Option.bind_eq_some_iff.mp read
  have some : [] ++ lower l ≠ [] := fun h => begun (lower_eq_nil.mp h)
  have name := flushed_eq some flush
  rw [List.nil_append, List.nil_append] at name
  rw [name] at read
  exact fromdotGo_front read

/-- The names that are tried: a letter and a label in front of the domain. -/
theorem candidate_name {target d : Name} (valid : Valid target)
    (hkind : kind = ".ns." ∨ kind = ".mx.") {i : Nat} (hi : i < 26)
    (read : dnsDomainFromdot (candidate kind target i) = some d) : d = serverName kind target i := by
  have back : dnsDomainFromdot (dnsDomainTodot target) = some (lowerName target) := by
    have h := dnsDomainFromdot_todot valid 0
    rwa [List.replicate_zero, List.append_nil] at h
  have text : candidate kind target i =
      todotLabel [letter i] ++ 46 :: (todotLabel (kindLabel kind) ++ 46 :: dnsDomainTodot target) := by
    rw [letter_text i hi]
    rcases hkind with rfl | rfl
    · rfl
    · rfl
  have label : kindLabel kind ≠ [] ∧ (kindLabel kind).length ≤ 63 ∧
      lower (kindLabel kind) = kindLabel kind := by
    rcases hkind with rfl | rfl
    · decide
    · decide
  have one : [letter i].length ≤ 63 := by
    rw [List.length_singleton]
    omega
  rw [text] at read
  obtain ⟨tail, rest, rfl⟩ := fromdot_label (List.cons_ne_nil _ _) one read
  obtain ⟨tail', rest', rfl⟩ := fromdot_label label.1 label.2.1 rest
  rw [back] at rest'
  cases rest'
  rw [label.2.2, letter_lower i hi]
  rfl

theorem fromdot_ok {s : Bytes} {d : Name} (run : fromdot s = .ok d) : dnsDomainFromdot s = some d := by
  obtain ⟨d', read, run'⟩ | ⟨-, run'⟩ := fromdot_cases s
  · rw [run] at run'
    cases run'
    exact read
  · rw [run] at run'
    cases run'

theorem namesGo_eq {target : Name} (valid : Valid target) (hkind : kind = ".ns." ∨ kind = ".mx.")
    {is : List Nat} (small : ∀ i ∈ is, i < 26) {ns : List Name}
    (run : namesGo kind target is = .ok ns) :
    ns = is.map (serverName kind target) ∧ (∀ d ∈ ns, Valid d) ∧
      ∀ i ∈ is, dnsDomainFromdot (candidate kind target i) = some (serverName kind target i) := by
  induction is generalizing ns with
  | nil =>
    cases run
    exact ⟨rfl, fun _ h => absurd h List.not_mem_nil, fun _ h => absurd h List.not_mem_nil⟩
  | cons i is ih =>
    rw [namesGo] at run
    obtain ⟨d, read, run⟩ := bind_eq_ok.mp run
    obtain ⟨more, rest, run⟩ := bind_eq_ok.mp run
    cases run
    rw [List.forall_mem_cons] at small
    obtain ⟨rfl, valids, reads⟩ := ih small.2 rest
    have here := fromdot_ok read
    rw [List.map_cons, ← candidate_name valid hkind small.1 here]
    refine ⟨rfl, List.forall_mem_cons.mpr ⟨dnsDomainFromdot_valid here, valids⟩, ?_⟩
    rw [List.forall_mem_cons, ← candidate_name valid hkind small.1 here]
    exact ⟨here, reads⟩

/-- A name is that of one letter at most. -/
theorem serverName_inj {target : Name} {i j : Nat} (hi : i < 26) (hj : j < 26)
    (same : lowerName (serverName kind target i) = lowerName (serverName kind target j)) : i = j := by
  have first : lower [letter i] = lower [letter j] := (List.cons.inj same).1
  rw [letter_lower i hi, letter_lower j hj] at first
  exact letter_inj i hi j hj (List.cons.inj first).1

/-- The first of the names that is equal to `d` is that of the letter that `d` has. -/
theorem findIdx_server {target d : Name} {ns : List Name}
    (names : ns = (List.range 26).map (serverName kind target)) (valids : ∀ d ∈ ns, Valid d)
    (valid : Valid d) {i : Nat} (hi : i < 26) (same : lowerName d = lowerName (serverName kind target i)) :
    ns.findIdx? (dnsDomainEqual d ·) = some i := by
  have found {j : Nat} (hj : j < 26) : ns[j]? = some (serverName kind target j) := by
    rw [names, List.getElem?_map, List.getElem?_range hj]
    rfl
  have here := List.mem_of_getElem? (found hi)
  cases hfind : ns.findIdx? (dnsDomainEqual d ·) with
  | none =>
    have differs := List.findIdx?_eq_none_iff.mp hfind _ here
    rw [(dnsDomainEqual_iff valid (valids _ here)).mpr same] at differs
    cases differs
  | some j =>
    obtain ⟨hj, equal, -⟩ := List.findIdx?_eq_some_iff_getElem.mp hfind
    have inside : j < 26 := by
      rw [names, List.length_map, List.length_range] at hj
      exact hj
    have name : ns[j] = serverName kind target j :=
      Option.some_inj.mp ((List.getElem?_eq_getElem hj).symm.trans (found inside))
    have equal := (dnsDomainEqual_iff valid (valids _ (List.getElem_mem hj))).mp equal
    rw [name, same] at equal
    rw [serverName_inj hi inside equal]

end

/-! ## The lines of servers -/

section

variable {x : Ip6.Xlong} {behind : Nat → Bytes} {req : Request} {kind : String}

/-- The server of the line is that of a letter. -/
def Takes (kind : String) (target : Name) (f : Nat → Bytes) (i : Nat) : Prop :=
  HasName target f ∧ ∃ d2, dnsDomainFromdot (qualify kind (f 0) (f 2)) = some d2 ∧
    lowerName d2 = lowerName (serverName kind target i)

/-- What a step leaves: a letter that was used stays used, and so is that of a line of the step. -/
structure Marks (kind : String) (target : Name) (fs : List (Nat × (Nat → Bytes))) (s t : State) :
    Prop where
  size : t.used.length = s.used.length
  kept : ∀ i : Nat, s.used[i]? = some true → t.used[i]? = some true
  marked : s.used.length = 26 → ∀ e ∈ fs, ∀ i < 26, Takes kind target e.2 i → t.used[i]? = some true

theorem Marks.refl (kind : String) (target : Name) (s : State) : Marks kind target [] s s :=
  ⟨rfl, fun _ h => h, fun _ _ he => absurd he List.not_mem_nil⟩

theorem Marks.trans {target : Name} {fs gs : List (Nat × (Nat → Bytes))} {s t u : State}
    (first : Marks kind target fs s t) (second : Marks kind target gs t u) :
    Marks kind target (fs ++ gs) s u := by
  refine ⟨second.size.trans first.size, fun i h => second.kept i (first.kept i h), ?_⟩
  intro size e he i hi takes
  rcases List.mem_append.mp he with he | he
  · exact second.kept i (first.marked size e he i hi takes)
  · exact second.marked (first.size.trans size) e he i hi takes

theorem markServer_marks {ns : List Name} {target : Name} {ttlAt ttlDefault n : Nat}
    (names : ns = (List.range 26).map (serverName kind target)) (valids : ∀ d ∈ ns, Valid d)
    (valid : Valid target) {f : Nat → Bytes} {s t : State}
    (run : markServer kind ttlAt ttlDefault ns target f s = .ok t) :
    t.out = s.out ∧ Marks kind target [(n, f)] s t := by
  unfold markServer at run
  obtain ⟨d1, read, run⟩ := bind_eq_ok.mp run
  have other {u : State} (same : u.used = s.used)
      (none : ∀ i < 26, ¬ Takes kind target f i) : Marks kind target [(n, f)] s u := by
    refine ⟨by rw [same], fun i h => by rw [same]; exact h, fun _ e he i hi takes => ?_⟩
    rw [List.mem_singleton.mp he] at takes
    exact absurd takes (none i hi)
  by_cases named : dnsDomainEqual d1 target = true
  · rw [if_pos named] at run
    obtain ⟨d2, read2, run⟩ := bind_eq_ok.mp run
    have there := fromdot_ok read2
    have finds {i : Nat} (hi : i < 26) (takes : Takes kind target f i) :
        ns.findIdx? (dnsDomainEqual d2 ·) = some i := by
      obtain ⟨-, d, hd, same⟩ := takes
      rw [there] at hd
      cases hd
      exact findIdx_server names valids (dnsDomainFromdot_valid there) hi same
    cases hfind : ns.findIdx? (dnsDomainEqual d2 ·) with
    | none =>
      simp only [hfind] at run
      cases run
      refine ⟨rfl, other rfl fun i hi takes => ?_⟩
      rw [finds hi takes] at hfind
      cases hfind
    | some j =>
      simp only [hfind] at run
      cases run
      refine ⟨rfl, List.length_set, fun i h => ?_, fun size e he i hi takes => ?_⟩
      · rw [List.getElem?_set]
        split
        · rename_i same
          rw [if_pos (by rw [same]; exact (List.getElem?_eq_some_iff.mp h).1)]
        · exact h
      · rw [List.mem_singleton.mp he] at takes
        rw [finds hi takes] at hfind
        cases hfind
        exact List.getElem?_set_self (by rw [size]; exact hi)
  · rw [if_neg named] at run
    cases run
    refine ⟨rfl, other rfl fun i hi takes => named ?_⟩
    exact (hasName_iff valid (fromdot_ok read)).mp takes.1

theorem checkFields_server (server : serverKind req.mode = some kind) :
    ∃ ttlAt ttlDefault, ∀ names n f s, checkFields x behind req names n f s =
      markServer kind ttlAt ttlDefault names req.target f s := by
  unfold serverKind at server
  unfold checkFields
  by_cases ns : req.mode = 46 ∨ req.mode = 38
  · rw [if_pos ns] at server
    cases server
    refine ⟨3, ttlNs, fun names n f s => ?_⟩
    rw [if_pos ns]
  · rw [if_neg ns] at server
    split at server
    · rename_i mx
      cases server
      refine ⟨4, ttlPositive, fun names n f s => ?_⟩
      rw [if_neg ns, mx, if_neg (by decide), if_neg (by decide), if_pos rfl]
    · cases server

/-- **The main loop for a server**: it copies the file, and marks the letters of the lines. -/
theorem scan_server (server : serverKind req.mode = some kind) {ns : List Name}
    (names : ns = (List.range 26).map (serverName kind req.target)) (valids : ∀ d ∈ ns, Valid d)
    {n : Nat} {lines : List Bytes} {s t : State} (run : scan x behind req ns n lines s = .ok t) :
    t.out = s.out ++ copied lines ∧ Marks kind req.target (kindLines req.mode lines n) s t := by
  obtain ⟨ttlAt, ttlDefault, check⟩ := @checkFields_server x behind req kind server
  induction lines generalizing n s with
  | nil =>
    cases run
    rw [copied, List.append_nil]
    exact ⟨rfl, Marks.refl kind req.target _⟩
  | cons line lines ih =>
    rw [scan] at run
    rw [copied, kindLines_cons]
    generalize (if lines = [] ∧ line = [] then [] else [10] : Bytes) = newline at run ⊢
    obtain ⟨u, here, rest⟩ := bind_eq_ok.mp run
    obtain ⟨out, marks⟩ := ih rest
    have step : u.out = s.out ++ (line ++ newline) ∧
        Marks kind req.target ((lineFields req.mode line).map (n, ·)).toList s u := by
      unfold checkLine at here
      cases hline : lineFields req.mode line with
      | none =>
        simp only [hline] at here
        cases here
        exact ⟨rfl, rfl, fun _ h => h, fun _ _ he => absurd he List.not_mem_nil⟩
      | some f =>
        simp only [hline, check] at here
        obtain ⟨out, marks⟩ := markServer_marks (n := n) names valids req.valid here
        exact ⟨out, marks.size, marks.kept, marks.marked⟩
    rw [out, step.1, List.append_assoc]
    exact ⟨rfl, step.2.trans marks⟩

/-- **A server's letter is free.** -/
theorem freshName (server : serverKind req.mode = some kind) (text : Bytes) :
    FreshName x behind req text kind := by
  have hkind : kind = ".ns." ∨ kind = ".mx." := by
    unfold serverKind at server
    split at server
    · exact .inl (Option.some_inj.mp server).symm
    · split at server
      · exact .inr (Option.some_inj.mp server).symm
      · cases server
  intro new run
  unfold edit namesFor at run
  rw [server] at run
  obtain ⟨ns, tried, run⟩ := bind_eq_ok.mp run
  obtain ⟨s, looked, run⟩ := bind_eq_ok.mp run
  obtain ⟨middle, chose, run⟩ := bind_eq_ok.mp run
  cases run
  obtain ⟨names, valids, reads⟩ := namesGo_eq req.valid hkind (fun i hi => List.mem_range.mp hi) tried
  obtain ⟨out, marks⟩ := scan_server server names valids looked
  unfold serverFields at chose
  rw [server, if_pos Option.isSome_some] at chose
  cases hfree : s.used.findIdx? (· = false) with
  | none =>
    rw [hfree] at chose
    cases chose
  | some i =>
    rw [hfree] at chose
    cases chose
    obtain ⟨inside, free, -⟩ := List.findIdx?_eq_some_iff_getElem.mp hfree
    have hi : i < 26 := by
      have size := marks.size
      rw [List.length_replicate] at size
      omega
    have undotted : qualify kind (dnsDomainTodot req.target) [letter i] =
        candidate kind req.target i := by
      unfold qualify candidate
      rw [if_neg (letter_undotted i hi)]
      rfl
    refine ⟨letter i, s.ttl, serverName kind req.target i, ?_, ?_, ?_⟩
    · rw [out, copied_split, List.nil_append]
      rfl
    · rw [undotted]
      exact reads i (List.mem_range.mpr hi)
    · intro e he named d2 there same
      have used := marks.marked List.length_replicate e he i hi ⟨named, d2, there, same⟩
      rw [List.getElem?_eq_getElem inside, of_decide_eq_true free] at used
      cases used

/-- **A host is added or refused, and a server gets a name of its own**, but for the hosts whose lines
the program reads another way than `tinydns-data`. -/
theorem promise_iff (text : Bytes) : Promise x behind req text ↔ Meets x behind req text := by
  by_cases host : req.mode = 61 ∨ req.mode = 54
  · unfold Promise
    rw [if_pos host]
    exact host_iff host text
  · have every : Meets x behind req text := by
      unfold Meets
      rw [if_neg fun h => host (.inl h), if_neg fun h => host (.inr h)]
      trivial
    refine ⟨fun _ => every, fun _ => ?_⟩
    unfold Promise
    rw [if_neg host]
    exact fun kind server => freshName server text

end

/-- The address `::1`. -/
def loopback : Bytes := List.replicate 15 0 ++ [1]

def addLoopback : Request where
  mode := 54
  target := [ascii "b"]
  targetip := loopback
  known := by decide
  valid := by decide
  size := by decide

/-- The host that has the address already. -/
def loopbackLine : Bytes := ascii "6a:00000000000000000000000000000001:86400"

/-- The second host with an IPv6 address is added like the first. -/
theorem promise_broken :
    ¬ ∀ (behind : Nat → Bytes) (req : Request) (text : Bytes),
      Promise Ip6.hexadecimal behind req text := by
  intro all
  have promised := all (fun _ => List.replicate 12 0) addLoopback (loopbackLine ++ [10])
  unfold Promise at promised
  rw [if_pos (.inr rfl)] at promised
  have lines : split 10 (loopbackLine ++ [10]) = [loopbackLine, []] := by decide +kernel
  have address : (lineFields 54 loopbackLine).map (fun f => ip6ScanFlat (f 1)) =
      some (some loopback) := by decide +kernel
  obtain ⟨f, read, scanned⟩ := Option.map_eq_some_iff.mp address
  have used : Used addLoopback (loopbackLine ++ [10]) := by
    refine ⟨(0, f), ?_, .inr scanned⟩
    rw [lines, kindLines_cons, show addLoopback.mode = 54 from rfl, read]
    exact List.mem_cons_self
  obtain ⟨⟨e, failed⟩, -⟩ := promised.refuses used
  have added : (edit Ip6.hexadecimal (fun _ => List.replicate 12 0) addLoopback
      (loopbackLine ++ [10])).isOk = true := by decide +kernel
  rw [failed] at added
  cases added

end TinyDnssec.Edit
