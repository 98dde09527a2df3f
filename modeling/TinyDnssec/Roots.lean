import TinyDnssec.Base.Loop
import TinyDnssec.Ip6

/-!
# The blocks of server addresses

`init2` of `roots.c`, as far as it makes a block of a file of the directory `servers`, and `init` of
`dns_rcip.c`. Both have room for sixteen addresses, and both stop when more than 60 octets are filled:
that is the mark of a block of sixteen addresses of four octets, and stops at the fourth. The loop over
`DNSCACHEIP` goes on where the count of `ip6_scan` says, and that is inside a double colon which nothing
follows, so that it also stops behind an address that ends with one.

The octets that a scan writes when it fails, and what is in the block before, are parameters: nothing
of them is left.

That there is a server at an address, and that the files are the ones meant, is not said.
-/

namespace TinyDnssec.Roots

open Octets Ip6 Loop

/-! ## The functions -/

/-- `char servers[256]`, and how much of it is filled. -/
structure Servers where
  block : Bytes
  serverslen : Nat

def write (block octets : Bytes) (pos : Nat) : Bytes :=
  block.take pos ++ octets ++ block.drop (pos + octets.length)

/-- `byte_zero(servers + serverslen,256 - serverslen)` -/
def Servers.zero (b : Servers) : Bytes :=
  write b.block (List.replicate (256 - b.serverslen) 0) b.serverslen

/-- The sixteen octets of an address. -/
abbrev Address := { ip : Bytes // ip.length = 16 }

variable (x : Xlong) (left : Bytes → Address)

/-- `ip6_scan(s,servers + serverslen)`, with what it returns; `left` is what it writes when it fails. -/
def Servers.scan (b : Servers) (s : Bytes) : Nat × Servers :=
  match ip6Scan x s with
  | some (i, ip) => (i, ⟨write b.block ip b.serverslen, b.serverslen + 16⟩)
  | none => (0, { b with block := write b.block (left s).1 b.serverslen })

/-- The loop over a text that ends with a newline: `start` is `text.s + j`. -/
def eachLine (body : Bytes → Servers → Servers) : Bytes → Bytes → Servers → Servers
  | _, [], b => b
  | start, c :: text, b =>
    if c = 10 then eachLine body text text (body start b) else eachLine body start text b

def scanLine (s : Bytes) (b : Servers) : Servers :=
  if b.serverslen ≤ 60 then (b.scan x left s).2 else b

/-- `init2` for a file with this text: the block that is put behind the name. -/
def init2 (block text : Bytes) : Bytes :=
  (eachLine (scanLine x left) (text ++ [10]) (text ++ [10]) ⟨block, 0⟩).zero

def isBlank (c : UInt8) : Bool := c = 32 ∨ c = 9

def scanNameserver (s : Bytes) (b : Servers) : Servers :=
  if s.take 11 = ascii "nameserver " ∨ s.take 11 = ascii "nameserver\t" then
    scanLine x left ((s.drop 10).dropWhile isBlank) b
  else b

/-- The loop over the value of `DNSCACHEIP`; it returns what is filled. -/
def dnscacheipRound : Bytes × Servers → Except Servers (Bytes × Servers)
  | (s, b) =>
    if b.serverslen ≤ 60 then
      if s.head? = some 46 then .ok (s.drop 1, b)
      else
        let (i, b) := b.scan x left s
        if i = 0 then .error b else .ok (s.drop i, b)
    else .error b

/-- `DNSCACHEIP`, if it is set. Nothing is what a loop that does not end would return. -/
def dnscacheip (b : Servers) : Option Bytes → Option Servers
  | none => some b
  | some s =>
    match rounds (dnscacheipRound x left) (s.length + 1) (s, b) with
    | .error b => some b
    | .ok _ => none

def loopback : Bytes := List.replicate 15 0 ++ [1]

/-- `init` of `dns_rcip.c`, for a value of `DNSCACHEIP` and the text of `/etc/resolv.conf`, which may
not be there, or not be readable. -/
def init (env : Option Bytes) (resolv : Option (Option Bytes)) (block : Bytes) : Option Bytes := do
  let b ← dnscacheip x left ⟨block, 0⟩ env
  let b ← if b.serverslen = 0 then
      resolv.map fun
        | some data => eachLine (scanNameserver x left) (data ++ [10]) (data ++ [10]) b
        | none => b
    else some b
  let b := if b.serverslen = 0 then ⟨write b.block loopback 0, 16⟩ else b
  some b.zero

/-! ## What is configured -/

def lines (text : Bytes) : List Bytes := text.splitOn 10

def lineAddress (line : Bytes) : Option Bytes := (ip6Scan x line).map Prod.snd

/-- The address on a line of `/etc/resolv.conf`. -/
def nameserverAddress (line : Bytes) : Option Bytes :=
  if line.take 11 = ascii "nameserver " ∨ line.take 11 = ascii "nameserver\t" then
    lineAddress x ((line.drop 10).dropWhile isBlank)
  else none

/-- The addresses of a file in `servers`. -/
def parseable (text : Bytes) : List Bytes := (lines text).filterMap (lineAddress x)

/-- The addresses at the beginning of a text, with dots in front of them, and which of them end with a
double colon. -/
def listedGo : Nat → Bytes → List (Bytes × Bool)
  | 0, _ => []
  | n + 1, s =>
    if s.head? = some 46 then listedGo n (s.drop 1)
    else
      match lineAddress x s with
      | some ip => (ip, (addressLeft x s).2) :: listedGo n (addressLeft x s).1
      | none => []

/-- What a value of `DNSCACHEIP` lists. Each of the addresses takes an octet at least. -/
def listed (s : Bytes) : List (Bytes × Bool) := listedGo x s.length s

/-- What `DNSCACHEIP` lists, and if that is nothing, what `/etc/resolv.conf` does. -/
def configured (env : Option Bytes) (resolv : Option (Option Bytes)) : List Bytes :=
  match (env.map (listed x)).getD [] with
  | [] => (resolv.join.map fun data => (lines data).filterMap (nameserverAddress x)).getD []
  | entry :: entries => (entry :: entries).map Prod.fst

/-- How many of the addresses are not behind one that ends with a double colon. -/
def reach : List (Bytes × Bool) → Nat
  | [] => 0
  | (_, double) :: entries => 1 + if double then 0 else reach entries

/-- How many of the configured addresses have a place in the block: four, and in `DNSCACHEIP` none
behind one that ends with a double colon. -/
def placed (env : Option Bytes) : Nat :=
  match (env.map (listed x)).getD [] with
  | [] => 4
  | entry :: entries => min 4 (reach (entry :: entries))

/-- Addresses, and zeroes behind them. -/
def padded (ips : List Bytes) : Bytes := ips.flatten ++ List.replicate (256 - 16 * ips.length) 0

/-- The first sixteen addresses in order, and zeroes. -/
def Consists (block : Bytes) (ips : List Bytes) : Prop := block = padded (ips.take 16)

/-- Behind the first `n` addresses there is none but `::`, which looks like nothing. -/
def Fits (n : Nat) (ips : List Bytes) : Prop := ∀ ip ∈ (ips.take 16).drop n, ip = Dnscache.v6any

/-! ## What is in the block -/

section Filling

/-- The first four of the addresses are what the block is filled with. -/
structure Holds (ips : List Bytes) (b : Servers) : Prop where
  block : b.block.length = 256
  serverslen : b.serverslen = 16 * (ips.take 4).length
  filled : b.block.take b.serverslen = (ips.take 4).flatten

theorem holds_nil {block : Bytes} (whole : block.length = 256) : Holds [] ⟨block, 0⟩ :=
  ⟨whole, rfl, rfl⟩

theorem write_length {block octets : Bytes} {pos : Nat} (room : pos + octets.length ≤ block.length) :
    (write block octets pos).length = block.length := by
  rw [write, List.length_append, List.length_append, List.length_take, List.length_drop]
  omega

theorem write_front {block octets : Bytes} {pos : Nat} (room : pos ≤ block.length) :
    (write block octets pos).take pos = block.take pos := by
  have front : (block.take pos).length = pos := List.length_take_of_le room
  rw [write, List.append_assoc, List.take_append_of_le_length front.ge, List.take_of_length_le front.le]

theorem write_behind {block octets : Bytes} {pos : Nat} (room : pos ≤ block.length) :
    (write block octets pos).take (pos + octets.length) = block.take pos ++ octets := by
  have front : (block.take pos ++ octets).length = pos + octets.length := by
    rw [List.length_append, List.length_take_of_le room]
  rw [write, List.take_append_of_le_length front.ge, List.take_of_length_le front.le]

variable {x : Xlong} {left : Bytes → Address} {ips : List Bytes} {b : Servers}

theorem Holds.room (holds : Holds ips b) (low : b.serverslen ≤ 60) : ips.length ≤ 3 := by
  have filled := holds.serverslen
  rw [List.length_take] at filled
  omega

theorem Holds.full (holds : Holds ips b) (high : ¬ b.serverslen ≤ 60) (more : List Bytes) :
    Holds (ips ++ more) b := by
  have filled := holds.serverslen
  rw [List.length_take] at filled
  have same : (ips ++ more).take 4 = ips.take 4 := List.take_append_of_le_length (by omega)
  exact ⟨holds.block, same ▸ holds.serverslen, same ▸ holds.filled⟩

/-- A scan into a block that has room: an address is behind the others, a failure leaves them alone. -/
theorem Holds.scan (holds : Holds ips b) (low : b.serverslen ≤ 60) (s : Bytes) :
    Holds (ips ++ (lineAddress x s).toList) (b.scan x left s).2 := by
  have few := holds.room low
  have whole := holds.block
  have alone : ips.take 4 = ips := List.take_of_length_le (by omega)
  have filled := holds.filled
  have used := holds.serverslen
  rw [alone] at filled used
  unfold Servers.scan lineAddress
  cases read : ip6Scan x s with
  | none =>
    have octets := (left s).2
    have room : b.serverslen + (left s).1.length ≤ b.block.length := by omega
    have inside : b.serverslen ≤ b.block.length := by omega
    rw [Option.map_none, Option.toList_none, List.append_nil]
    refine ⟨?_, ?_, ?_⟩
    · exact (write_length room).trans whole
    · rw [alone]
      exact used
    · rw [alone]
      exact (write_front inside).trans filled
  | some found =>
    have octets := (ip6Scan_whole read).2
    have room : b.serverslen + found.2.length ≤ b.block.length := by omega
    have inside : b.serverslen ≤ b.block.length := by omega
    have next : (ips ++ [found.2]).take 4 = ips ++ [found.2] := by
      refine List.take_of_length_le ?_
      rw [List.length_append, List.length_singleton]
      omega
    rw [Option.map_some, Option.toList_some]
    refine ⟨?_, ?_, ?_⟩
    · exact (write_length room).trans whole
    · rw [next, List.length_append, List.length_singleton, Nat.mul_add]
      exact congrArg (· + 16) used
    · rw [next, List.flatten_append, List.flatten_singleton, ← filled]
      show (write b.block found.2 b.serverslen).take (b.serverslen + 16) = _
      rw [← octets]
      exact write_behind inside

theorem Holds.zero (holds : Holds ips b) : b.zero = padded (ips.take 4) := by
  have used := holds.serverslen
  have whole := holds.block
  have four : (ips.take 4).length ≤ 4 := List.length_take_le _ _
  rw [Servers.zero, write, holds.filled, List.length_replicate, List.drop_eq_nil_of_le (by omega),
    List.append_nil, padded, used]

end Filling

/-! ## Line by line -/

section Lines

variable {body : Bytes → Servers → Servers} {b : Servers} {ips : List Bytes}

theorem eachLine_line {line : Bytes} (single : 10 ∉ line) (start rest : Bytes) :
    eachLine body start (line ++ 10 :: rest) b = eachLine body rest rest (body start b) := by
  induction line with
  | nil => rfl
  | cons c line ih =>
    have other : c ≠ 10 := fun h => single (h ▸ List.mem_cons_self)
    rw [List.cons_append, eachLine, if_neg other]
    exact ih fun h => single (List.mem_cons_of_mem _ h)

theorem lines_cons {line : Bytes} (single : 10 ∉ line) (rest : Bytes) :
    lines (line ++ 10 :: rest) = line :: lines rest :=
  List.splitOn_append_cons_self_of_not_mem single rest

/-- **The loop over the lines**: every line with an address gives it to the block. -/
theorem eachLine_holds {address : Bytes → Option Bytes}
    (step : ∀ line rest ips b, 10 ∉ line → Holds ips b →
      Holds (ips ++ (address line).toList) (body (line ++ 10 :: rest) b))
    (holds : Holds ips b) (text : Bytes) :
    Holds (ips ++ (lines text).filterMap address)
      (eachLine body (text ++ [10]) (text ++ [10]) b) := by
  induction size : text.length using Nat.strong_induction_on generalizing text ips b with
  | _ n ih =>
    by_cases newline : 10 ∈ text
    · obtain ⟨line, rest, rfl, single⟩ := List.eq_append_cons_of_mem newline
      have shorter : rest.length < n := by
        rw [← size, List.length_append, List.length_cons]
        omega
      have next := ih rest.length shorter (step line (rest ++ [10]) ips b single holds) rest rfl
      rw [lines_cons single, List.append_assoc, List.cons_append, eachLine_line single]
      rw [List.append_assoc] at next
      cases found : address line with
      | none =>
        rw [found] at next
        rwa [List.filterMap_cons_none found]
      | some ip =>
        rw [found] at next
        rwa [List.filterMap_cons_some found]
    · have last := step text [] ips b newline holds
      have single : lines text = [text] := List.splitOn_eq_singleton newline
      rw [single, eachLine_line newline]
      cases found : address text with
      | none =>
        rw [found] at last
        rwa [List.filterMap_cons_none found]
      | some ip =>
        rw [found] at last
        rwa [List.filterMap_cons_some found]

variable {x : Xlong} {left : Bytes → Address} (reads : x.Reads)

theorem scanLine_holds (holds : Holds ips b) (s : Bytes) :
    Holds (ips ++ (lineAddress x s).toList) (scanLine x left s b) := by
  unfold scanLine
  by_cases low : b.serverslen ≤ 60
  · rw [if_pos low]
    exact holds.scan low s
  · rw [if_neg low]
    exact holds.full low _

include reads

/-- The address of a line does not depend on the lines behind it. -/
theorem lineAddress_line (line rest : Bytes) :
    lineAddress x (line ++ 10 :: rest) = lineAddress x line := by
  have ends : EndsAddress (10 :: rest) := by
    intro b hb
    cases hb
    decide
  rw [lineAddress, lineAddress, ip6Scan_ends ends reads]

omit reads in
/-- What a line of a text begins with, it has in itself. -/
theorem take_line {line word : Bytes} (clean : 10 ∉ word) (rest : Bytes) :
    (line ++ 10 :: rest).take word.length = word ↔ line.take word.length = word := by
  by_cases long : word.length ≤ line.length
  · rw [List.take_append_of_le_length long]
  · have short : line.length < word.length := Nat.lt_of_not_le long
    refine iff_of_false (fun same => ?_) fun same => ?_
    · apply clean
      rw [← same, List.mem_take_iff_getElem]
      refine ⟨line.length, ?_, ?_⟩
      · rw [List.length_append, List.length_cons]
        omega
      · rw [List.getElem_append_right (Nat.le_refl _)]
        simp
    · have length := congrArg List.length same
      rw [List.length_take] at length
      omega

omit reads in
theorem dropWhile_blank (s rest : Bytes) :
    (s ++ 10 :: rest).dropWhile isBlank = s.dropWhile isBlank ++ 10 :: rest := by
  induction s with
  | nil => rfl
  | cons c s ih =>
    rw [List.cons_append, List.dropWhile_cons, List.dropWhile_cons]
    split
    · exact ih
    · rfl

theorem scanNameserver_holds (line rest : Bytes) (holds : Holds ips b) :
    Holds (ips ++ (nameserverAddress x line).toList)
      (scanNameserver x left (line ++ 10 :: rest) b) := by
  have space := @take_line line (ascii "nameserver ") (by decide) rest
  have tab := @take_line line (ascii "nameserver\t") (by decide) rest
  have eleven : (ascii "nameserver ").length = 11 ∧ (ascii "nameserver\t").length = 11 := by decide
  rw [eleven.1] at space
  rw [eleven.2] at tab
  unfold scanNameserver nameserverAddress
  by_cases word : line.take 11 = ascii "nameserver " ∨ line.take 11 = ascii "nameserver\t"
  · have long : 11 ≤ line.length := by
      have length : (line.take 11).length = 11 := word.elim
        (fun h => h ▸ eleven.1) fun h => h ▸ eleven.2
      rw [List.length_take] at length
      omega
    rw [if_pos word, if_pos (by rwa [space, tab]), List.drop_append_of_le_length (by omega),
      dropWhile_blank, ← lineAddress_line reads _ rest]
    exact scanLine_holds holds _
  · rw [if_neg word, if_neg (by rwa [space, tab]), Option.toList_none, List.append_nil]
    exact holds

/-! ## The value of `DNSCACHEIP` -/

omit reads in
theorem dnscacheipRound_dot {s : Bytes} (low : b.serverslen ≤ 60) (dot : s.head? = some 46) :
    dnscacheipRound x left (s, b) = .ok (s.drop 1, b) := by
  rw [dnscacheipRound, if_pos low, if_pos dot]

omit reads in
theorem dnscacheipRound_stop {s : Bytes} (low : b.serverslen ≤ 60) (dotless : s.head? ≠ some 46)
    (read : ip6Scan x s = none) :
    dnscacheipRound x left (s, b) = .error (b.scan x left s).2 := by
  rw [dnscacheipRound, if_pos low, if_neg dotless, Servers.scan, read]
  rfl

omit reads in
theorem dnscacheipRound_next {s ip : Bytes} {i : Nat} (low : b.serverslen ≤ 60)
    (dotless : s.head? ≠ some 46) (read : ip6Scan x s = some (i, ip)) :
    dnscacheipRound x left (s, b) = .ok (s.drop i, (b.scan x left s).2) := by
  have some_read : 1 ≤ i := (ip6Scan_whole read).1
  rw [dnscacheipRound, if_pos low, if_neg dotless, Servers.scan, read]
  exact if_neg (Nat.ne_of_gt some_read)

omit reads in
/-- The addresses the loop comes to. -/
theorem reach_cons (ip : Bytes) (double : Bool) (entries : List (Bytes × Bool)) :
    (((ip, double) :: entries).take (reach ((ip, double) :: entries))).map Prod.fst =
      ip :: if double then [] else (entries.take (reach entries)).map Prod.fst := by
  rw [reach, Nat.add_comm]
  cases double <;> rfl

/-- **The loop over a list of addresses** ends, and has filled the block with those it comes to. -/
theorem rounds_dnscacheip {s : Bytes} {n m : Nat} (enough : s.length < n) (all : s.length ≤ m)
    (holds : Holds ips b) :
    ∃ b', rounds (dnscacheipRound x left) n (s, b) = .error b' ∧
      Holds (ips ++ ((listedGo x m s).take (reach (listedGo x m s))).map Prod.fst) b' := by
  induction n generalizing s m ips b with
  | zero => exact absurd enough (Nat.not_lt_zero _)
  | succ n ih =>
    by_cases low : b.serverslen ≤ 60
    · have scanned : Holds (ips ++ (lineAddress x s).toList) (b.scan x left s).2 := holds.scan low s
      cases s with
      | nil =>
        have nothing := ip6Scan_nil reads
        have none_listed : listedGo x m [] = [] := by
          cases m with
          | zero => rfl
          | succ m => rw [listedGo, if_neg (by simp), lineAddress, nothing]; rfl
        rw [lineAddress, nothing] at scanned
        rw [none_listed]
        exact ⟨_, rounds_return (dnscacheipRound_stop low (by simp) nothing), scanned⟩
      | cons c s =>
        obtain ⟨m, rfl⟩ := Nat.exists_eq_add_of_le' (Nat.le_trans (Nat.succ_pos s.length) all)
        rw [List.length_cons] at enough all
        rw [listedGo]
        by_cases dot : (c :: s).head? = some 46
        · rw [rounds_next (dnscacheipRound_dot low dot), if_pos dot]
          exact ih (Nat.lt_of_succ_lt_succ enough) (Nat.le_of_succ_le_succ all) holds
        · rw [if_neg dot]
          unfold lineAddress at scanned ⊢
          cases read : ip6Scan x (c :: s) with
          | none =>
            rw [read] at scanned
            exact ⟨_, rounds_return (dnscacheipRound_stop low dot read), scanned⟩
          | some found =>
            have some_read := (ip6Scan_whole read).1
            have shorter : ((c :: s).drop found.1).length ≤ s.length := by
              rw [List.length_drop, List.length_cons]
              omega
            have behind := ip6Scan_left reads read
            rw [read] at scanned
            rw [rounds_next (dnscacheipRound_next low dot read), Option.map_some]
            dsimp only
            rw [reach_cons]
            cases double : (addressLeft x (c :: s)).2 with
            | false =>
              rw [double, if_neg Bool.false_ne_true] at behind
              rw [behind] at shorter
              obtain ⟨b', returned, filled⟩ :=
                ih (m := m) (show (addressLeft x (c :: s)).1.length < n by omega) (by omega) scanned
              rw [List.append_assoc] at filled
              rw [behind]
              exact ⟨b', returned, filled⟩
            | true =>
              -- what is left of the double colon begins no address
              rw [double, if_pos rfl] at behind
              obtain ⟨place, word, colon⟩ := behind
              have stop := ip6Scan_colon word colon
              rw [place] at shorter ⊢
              obtain ⟨n, rfl⟩ := Nat.exists_eq_add_of_le' (show 1 ≤ n by omega)
              generalize addressLeft x (c :: s) = rest at stop
              by_cases low' : (b.scan x left (c :: s)).2.serverslen ≤ 60
              · have last := @Holds.scan x left _ _ scanned low' (58 :: rest.1)
                rw [lineAddress, stop, Option.map_none, Option.toList_none, List.append_nil] at last
                exact ⟨_, rounds_return (dnscacheipRound_stop low' (by simp) stop), last⟩
              · refine ⟨_, rounds_return ?_, scanned⟩
                rw [dnscacheipRound, if_neg low']
    · have stop : dnscacheipRound x left (s, b) = .error b := by rw [dnscacheipRound, if_neg low]
      exact ⟨b, rounds_return stop, holds.full low _⟩

theorem dnscacheip_holds {env : Option Bytes} (holds : Holds [] b) :
    ∃ b', dnscacheip x left b env = some b' ∧
      Holds ((((env.map (listed x)).getD []).take (reach ((env.map (listed x)).getD []))).map
        Prod.fst) b' := by
  cases env with
  | none => exact ⟨b, rfl, holds⟩
  | some s =>
    obtain ⟨b', returned, filled⟩ : ∃ b', rounds (dnscacheipRound x left) (s.length + 1) (s, b) =
        .error b' ∧ Holds (((listed x s).take (reach (listed x s))).map Prod.fst) b' :=
      rounds_dnscacheip reads (Nat.lt_succ_self s.length) (Nat.le_refl _) holds
    refine ⟨b', ?_, filled⟩
    rw [dnscacheip, returned]

end Lines

/-! ## The blocks -/

section Blocks

variable {x : Xlong} {left : Bytes → Address} {block : Bytes} (whole : block.length = 256)

theorem Holds.nothing {ips : List Bytes} {b : Servers} (holds : Holds ips b) :
    b.serverslen = 0 ↔ ips = [] := by
  rw [holds.serverslen, ← List.length_eq_zero_iff, List.length_take]
  omega

theorem flatten_length {ips : List Bytes} (addresses : ∀ ip ∈ ips, ip.length = 16) :
    ips.flatten.length = 16 * ips.length := by
  induction ips with
  | nil => rfl
  | cons ip ips ih =>
    rw [List.flatten_cons, List.length_append, addresses ip List.mem_cons_self,
      ih fun a ha => addresses a (List.mem_cons_of_mem _ ha), List.length_cons]
    omega

/-- Addresses behind others do not show when all of their octets are zero. -/
theorem padded_append_iff {front behind : List Bytes} (few : front.length + behind.length ≤ 16)
    (addresses : ∀ ip ∈ behind, ip.length = 16) :
    padded front = padded (front ++ behind) ↔ ∀ ip ∈ behind, ip = Dnscache.v6any := by
  have zeroes : List.replicate (256 - 16 * front.length) (0 : UInt8) =
      List.replicate (16 * behind.length) 0 ++
        List.replicate (256 - 16 * (front ++ behind).length) 0 := by
    rw [← List.replicate_add, List.length_append]
    congr 1
    omega
  unfold padded
  rw [List.flatten_append, List.append_assoc, List.append_cancel_left_eq, zeroes,
    List.append_cancel_right_eq, eq_comm, List.eq_replicate_iff]
  constructor
  · rintro ⟨-, zero⟩ ip hip
    exact List.eq_replicate_iff.mpr ⟨addresses ip hip, fun b hb =>
      zero b (List.mem_flatten.mpr ⟨ip, hip, hb⟩)⟩
  · intro any
    refine ⟨flatten_length addresses, fun b hb => ?_⟩
    obtain ⟨ip, hip, hb⟩ := List.mem_flatten.mp hb
    rw [any ip hip] at hb
    exact List.eq_of_mem_replicate hb

theorem padded_eq_iff {ips : List Bytes} (addresses : ∀ ip ∈ ips, ip.length = 16) {n : Nat}
    (few : n ≤ 16) : Consists (padded (ips.take n)) ips ↔ Fits n ips := by
  have split : ips.take 16 = ips.take n ++ (ips.take 16).drop n := by
    have front : ips.take n = (ips.take 16).take n := by rw [List.take_take, Nat.min_eq_left few]
    rw [front, List.take_append_drop]
  have room : (ips.take n).length + ((ips.take 16).drop n).length ≤ 16 := by
    rw [← List.length_append, ← split]
    exact List.length_take_le _ _
  have same := padded_append_iff room fun ip hip =>
    addresses ip (List.mem_of_mem_take (List.mem_of_mem_drop hip))
  rwa [← split] at same

include whole
variable (reads : x.Reads)
include reads

theorem init2_eq (text : Bytes) :
    init2 x left block text = padded ((parseable x text).take 4) := by
  have filled : Holds (parseable x text)
      (eachLine (scanLine x left) (text ++ [10]) (text ++ [10]) ⟨block, 0⟩) := by
    refine eachLine_holds (fun line rest ips b _ holds => ?_) (holds_nil whole) text
    rw [← lineAddress_line reads line rest]
    exact scanLine_holds holds _
  exact filled.zero

omit whole reads in
/-- The end of `init`: the host itself where there is nothing else. -/
theorem Holds.last {ips : List Bytes} {b : Servers} (holds : Holds ips b) :
    (if b.serverslen = 0 then ⟨write b.block loopback 0, 16⟩ else b : Servers).zero =
      padded (if ips = [] then [loopback] else ips.take 4) := by
  by_cases nothing : ips = []
  · have room : 0 + loopback.length ≤ b.block.length := by rw [holds.block]; decide
    have default : Holds [loopback] ⟨write b.block loopback 0, 16⟩ := by
      exact ⟨(write_length room).trans holds.block, rfl,
        @write_behind b.block loopback 0 (Nat.zero_le _)⟩
    rw [if_pos (holds.nothing.mpr nothing), if_pos nothing]
    exact default.zero
  · rw [if_neg (mt holds.nothing.mp nothing), if_neg nothing]
    exact holds.zero

omit whole in
theorem nameservers_holds {b : Servers} (holds : Holds [] b) (data : Bytes) :
    Holds ((lines data).filterMap (nameserverAddress x))
      (eachLine (scanNameserver x left) (data ++ [10]) (data ++ [10]) b) :=
  eachLine_holds (fun line rest _ _ _ holds => scanNameserver_holds reads line rest holds) holds data

omit whole reads in
theorem placed_le (env : Option Bytes) : placed x env ≤ 4 := by
  unfold placed
  split
  · exact Nat.le_refl 4
  · exact Nat.min_le_left 4 _

/-- What `init` makes of the addresses that are configured; without any, it is the host itself. -/
theorem init_eq {env : Option Bytes} {resolv : Option (Option Bytes)}
    (known : resolv = none → (env.map (listed x)).getD [] ≠ []) :
    init x left env resolv block = some (padded (if configured x env resolv = [] then [loopback]
      else (configured x env resolv).take (placed x env))) := by
  obtain ⟨b, returned, holds⟩ := @dnscacheip_holds ⟨block, 0⟩ x left reads env (holds_nil whole)
  unfold init configured placed
  simp only [returned, Option.bind_eq_bind, Option.bind_some]
  generalize (env.map (listed x)).getD [] = entries at known holds
  cases entries with
  | nil =>
    rw [if_pos (holds.nothing.mpr rfl)]
    cases resolv with
    | none => exact absurd rfl (known rfl)
    | some file =>
      cases file with
      | none => exact congrArg some holds.last
      | some data => exact congrArg some (nameservers_holds reads holds data).last
  | cons entry entries =>
    have reached : ((entry :: entries).take (reach (entry :: entries))).map Prod.fst ≠ [] := by
      rw [reach_cons]
      exact List.cons_ne_nil _ _
    have same : (((entry :: entries).take (reach (entry :: entries))).map Prod.fst).take 4 =
        ((entry :: entries).map Prod.fst).take (min 4 (reach (entry :: entries))) := by
      rw [List.map_take, List.take_take]
    have last := holds.last
    rw [if_neg reached, same] at last
    rw [if_neg (mt holds.nothing.mp reached)]
    dsimp only
    rw [if_neg (show (entry :: entries).map Prod.fst ≠ [] from List.cons_ne_nil _ _)]
    exact congrArg some last

omit whole reads in
theorem lineAddress_whole {line ip : Bytes} (found : lineAddress x line = some ip) :
    ip.length = 16 := by
  obtain ⟨read, hread, rfl⟩ := Option.map_eq_some_iff.mp found
  exact (ip6Scan_whole hread).2

omit whole reads in
theorem parseable_whole (text : Bytes) : ∀ ip ∈ parseable x text, ip.length = 16 := by
  intro ip hip
  obtain ⟨line, _, found⟩ := List.mem_filterMap.mp hip
  exact lineAddress_whole found

omit whole reads in
theorem listedGo_whole (n : Nat) (s : Bytes) : ∀ entry ∈ listedGo x n s, entry.1.length = 16 := by
  induction n generalizing s with
  | zero => exact fun entry h => absurd h List.not_mem_nil
  | succ n ih =>
    rw [listedGo]
    split
    · exact ih _
    · cases found : lineAddress x s with
      | none => exact fun entry h => absurd h List.not_mem_nil
      | some ip =>
        intro entry h
        rcases List.mem_cons.mp h with rfl | later
        · exact lineAddress_whole found
        · exact ih _ entry later

omit whole reads in
theorem configured_whole (env : Option Bytes) (resolv : Option (Option Bytes)) :
    ∀ ip ∈ configured x env resolv, ip.length = 16 := by
  intro ip hip
  unfold configured at hip
  split at hip
  · cases file : resolv.join with
    | none =>
      rw [file] at hip
      exact absurd hip List.not_mem_nil
    | some data =>
      rw [file] at hip
      obtain ⟨line, _, found⟩ := List.mem_filterMap.mp hip
      unfold nameserverAddress at found
      split at found
      · exact lineAddress_whole found
      · cases found
  · rename_i entry entries found
    obtain ⟨e, he, rfl⟩ := List.mem_map.mp hip
    rw [← found] at he
    cases env with
    | none => exact absurd he List.not_mem_nil
    | some s => exact listedGo_whole _ s e he

/-- **The blocks of server addresses** are those that are configured exactly when there are none but
`::` behind the fourth, for a file in `servers`; for `DNSCACHEIP` and `/etc/resolv.conf`, also when
there is any address at all, and none but `::` behind one that ends with a double colon. -/
theorem blocks_iff :
    (∀ text, Consists (init2 x left block text) (parseable x text) ↔ Fits 4 (parseable x text)) ∧
      ∀ env resolv, (resolv = none → (env.map (listed x)).getD [] ≠ []) →
        ∃ ip, init x left env resolv block = some ip ∧
          (Consists ip (configured x env resolv) ↔
            configured x env resolv ≠ [] ∧ Fits (placed x env) (configured x env resolv)) := by
  refine ⟨fun text => ?_, fun env resolv known => ⟨_, init_eq whole reads known, ?_⟩⟩
  · rw [init2_eq whole reads]
    exact padded_eq_iff (parseable_whole text) (by decide)
  · by_cases nothing : configured x env resolv = []
    · rw [if_pos nothing, nothing]
      refine iff_of_false (fun same => ?_) fun h => h.1 rfl
      have last : (padded [loopback])[15]? = (padded [])[15]? := congrArg (·[15]?) same
      revert last
      decide
    · have few : placed x env ≤ 16 := Nat.le_trans (placed_le env) (by decide)
      rw [if_neg nothing, padded_eq_iff (configured_whole env resolv) few]
      exact (and_iff_right nothing).symm

end Blocks

/-- A block in which something was before, and a scanner that leaves something when it fails. -/
def stale : Bytes := List.replicate 256 7

theorem stale_whole : stale.length = 256 := List.length_replicate

def leavesOnes (_ : Bytes) : Address := ⟨List.replicate 16 1, rfl⟩

/-- Three addresses with a comment between them, and two in `DNSCACHEIP`, the last of which ends with
a double colon. -/
theorem blocks_few :
    Consists (init2 hexadecimal leavesOnes stale (ascii "10.0.0.1\n# next\n10.0.0.2\nfe80::1"))
        (parseable hexadecimal (ascii "10.0.0.1\n# next\n10.0.0.2\nfe80::1")) ∧
      ∃ ip, init hexadecimal leavesOnes (some (ascii "10.0.0.1.fe80::")) none stale = some ip ∧
        Consists ip (configured hexadecimal (some (ascii "10.0.0.1.fe80::")) none) := by
  have few : Fits 4 (parseable hexadecimal (ascii "10.0.0.1\n# next\n10.0.0.2\nfe80::1")) := by
    unfold Fits
    decide +kernel
  have two : configured hexadecimal (some (ascii "10.0.0.1.fe80::")) none =
        [Dnscache.v4mappedprefix ++ [10, 0, 0, 1], [254, 128] ++ List.replicate 14 0] ∧
      placed hexadecimal (some (ascii "10.0.0.1.fe80::")) = 2 := by
    decide +kernel
  have both := @blocks_iff hexadecimal leavesOnes stale stale_whole hexadecimal_reads
  obtain ⟨ip, returned, same⟩ := both.2 (some (ascii "10.0.0.1.fe80::")) none fun _ => by
    decide +kernel
  refine ⟨(both.1 _).mpr few, ip, returned, same.mpr ?_⟩
  rw [two.1, two.2]
  exact ⟨List.cons_ne_nil _ _, fun ip hip => absurd hip List.not_mem_nil⟩

/-- Of five addresses the fifth is dropped, and in `DNSCACHEIP` the one behind `fe80::`. -/
theorem not_blocks_five :
    ¬ Consists (init2 hexadecimal leavesOnes stale
        (ascii "10.0.0.1\n10.0.0.2\n10.0.0.3\n10.0.0.4\n10.0.0.5"))
      (parseable hexadecimal (ascii "10.0.0.1\n10.0.0.2\n10.0.0.3\n10.0.0.4\n10.0.0.5")) ∧
      ∃ ip, init hexadecimal leavesOnes (some (ascii "10.0.0.1.fe80::.10.0.0.2")) none stale =
        some ip ∧ ¬ Consists ip
          (configured hexadecimal (some (ascii "10.0.0.1.fe80::.10.0.0.2")) none) := by
  have known : ((some (ascii "10.0.0.1.fe80::.10.0.0.2")).map (listed hexadecimal)).getD [] ≠ [] ∧
      configured hexadecimal (some (ascii "10.0.0.1.fe80::.10.0.0.2")) none ≠ [] ∧
      placed hexadecimal (some (ascii "10.0.0.1.fe80::.10.0.0.2")) ≤ 16 := by decide +kernel
  refine ⟨?_, _, init_eq stale_whole hexadecimal_reads fun _ => known.1, ?_⟩
  · rw [init2_eq stale_whole hexadecimal_reads, padded_eq_iff (parseable_whole _) (by decide)]
    unfold Fits
    decide +kernel
  · rw [if_neg known.2.1, padded_eq_iff (configured_whole _ _) known.2.2]
    unfold Fits
    decide +kernel

end TinyDnssec.Roots
