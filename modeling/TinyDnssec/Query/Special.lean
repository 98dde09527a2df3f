import TinyDnssec.Dns
import TinyDnssec.Message

/-!
# dnscache: the names it knows by itself

`doit` of `query.c` answers some names without asking anybody: `localhost` and dotted-decimal names
with an address, and a table of names of IPv6 hosts, forward and backward.
-/

namespace TinyDnssec.Dnscache

open Octets

/-- A label that `dd` takes for a number up to 255: one to three digits, with no zero in front. -/
def ddOctet : Label → Option UInt8
  | [a] => if a < 48 ∨ a > 57 then none else some (a - 48)
  | [a, b] =>
    if a < 48 ∨ a > 57 then none
    else if a - 48 = 0 then none
    else if b < 48 ∨ b > 57 then none
    else some ((a - 48) * 10 + (b - 48))
  | [a, b, c] =>
    if a < 48 ∨ a > 57 then none
    else if a - 48 = 0 then none
    else if b < 48 ∨ b > 57 then none
    else if c < 48 ∨ c > 57 then none
    else
      let x := ((a.toNat - 48) * 10 + (b.toNat - 48)) * 10 + (c.toNat - 48)
      if x > 255 then none else some (UInt8.ofNat x)
  | _ => none

/-- The loop of `dd`: `j` octets have been read. -/
def ddGo (base : Name) : Name → Nat → Bytes → Option (Nat × Bytes)
  | q, j, ip =>
    if dnsDomainEqual q base then some (j, ip)
    else if j ≥ 4 then none
    else
      match q with
      | [] => none
      | l :: q =>
        match ddOctet l with
        | none => none
        | some x => ddGo base q (j + 1) (ip ++ [x])

/-- `dd`: how many numbers stand in front of `base` in `q`, and their octets. -/
def dd (q base : Name) : Option (Nat × Bytes) := ddGo base q 0 []

def globalip (d : Name) : Option Bytes :=
  if dnsDomainEqual d [ascii "localhost"] then some [127, 0, 0, 1]
  else
    match dd d [] with
    | some (4, ip) => some ip
    | _ => none

/-- One of the blocks of `doit` for a name of its own: the names it is for, and the record it answers
a query of the record's type with. -/
structure Special where
  names : List Name
  type : Bytes
  parts : List Part

/-- The labels of a reverse name: one for each hexadecimal digit. -/
def nibbles (s : String) : Name := (ascii s).map fun c => [c]

def ip6int (s : String) : Name := nibbles s ++ [ascii "ip6", ascii "int"]

def specials : List Special := [
  ⟨[ip6int "10000000000000000000000000000000"], dnsTPtr,
    [.name [ascii "ipv6-localhost"], .name [ascii "ipv6-loopback"]]⟩,
  ⟨[ip6int "000000000000000000000000000000ef"], dnsTPtr, [.name [ascii "ipv6-localnet"]]⟩,
  ⟨[ip6int "000000000000000000000000000000ff"], dnsTPtr, [.name [ascii "ipv6-mcastprefix"]]⟩,
  ⟨[ip6int "100000000000000000000000000020ff"], dnsTPtr, [.name [ascii "ipv6-allnodes"]]⟩,
  ⟨[ip6int "200000000000000000000000000020ff"], dnsTPtr, [.name [ascii "ipv6-allrouters"]]⟩,
  ⟨[ip6int "100000000000000000000000000020ff"], dnsTPtr, [.name [ascii "ipv6-allhosts"]]⟩,
  ⟨[[ascii "ipv6-localhost"], [ascii "ipv6-loopback"]], dnsTAaaa,
    [.octets [0, 0, 0, 0, 0, 0, 0, 0, 0, 0, 0, 0, 0, 0, 0, 1]]⟩,
  ⟨[[ascii "ipv6-localnet"]], dnsTAaaa, [.octets [254, 0, 0, 0, 0, 0, 0, 0, 0, 0, 0, 0, 0, 0, 0, 0]]⟩,
  ⟨[[ascii "ipv6-mcastprefix"]], dnsTAaaa,
    [.octets [255, 0, 0, 0, 0, 0, 0, 0, 0, 0, 0, 0, 0, 0, 0, 0]]⟩,
  ⟨[[ascii "ipv6-allnodes"]], dnsTAaaa,
    [.octets [255, 2, 0, 0, 0, 0, 0, 0, 0, 0, 0, 0, 0, 0, 0, 1]]⟩,
  ⟨[[ascii "ipv6-allrouters"]], dnsTAaaa,
    [.octets [255, 2, 0, 0, 0, 0, 0, 0, 0, 0, 0, 0, 0, 0, 0, 2]]⟩,
  ⟨[[ascii "ipv6-allhosts"]], dnsTAaaa,
    [.octets [255, 2, 0, 0, 0, 0, 0, 0, 0, 0, 0, 0, 0, 0, 0, 3]]⟩,
  ⟨[[ascii "1", ascii "0", ascii "0", ascii "127", ascii "in-addr", ascii "arpa"]], dnsTPtr,
    [.name [ascii "localhost"]]⟩]

/-- The first block that is for a name. -/
def special (d : Name) : Option Special :=
  specials.find? fun x => x.names.any fun n => dnsDomainEqual d n

end TinyDnssec.Dnscache
