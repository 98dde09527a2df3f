import TinyDnssec.Name

/-!
# Numbers and addresses in text

What the data file's numbers and addresses read as, and how `axfr-get` prints them: `scan_ulong`
with its 64-bit wrap, `ip4_scan.c` and `ip4_fmt.c`, and the flat hexadecimal form of
`ip6_scan.c` and `ip6_fmt.c`. Each printer is followed by the fact that its scanner undoes it.

`scan_ulong` and `fmt_ulong` are not functions of this package but of libqmail; `scanUlong` and `decimal` are
their documented behaviour, in 64 bits. Nothing else of libqmail is relied on here.
-/

namespace TinyDnssec

open Octets

/-- The number `scan_ulong` stores; it stores 0 when there is no digit. -/
def scanUlong (s : Bytes) : Nat := digitsValue (digitRun s) % 18446744073709551616

/-- `if (!scan_ulong(s,&u)) u = …`. -/
def scanUlongOr (default : Nat) (s : Bytes) : Nat :=
  if digitRun s = [] then default else scanUlong s

theorem scanUlongOr_decimal (default : Nat) {n : Nat} (h : n < 4294967296) :
    scanUlongOr default (decimal n) = n := by
  have hrun := digitRun_decimal n
  rw [scanUlongOr, hrun, if_neg (decimal_ne_nil n), scanUlong, hrun, digitsValue_decimal]
  omega

theorem scanUlong_decimal {n : Nat} (h : n < 4294967296) : scanUlong (decimal n) = n := by
  have h' := scanUlongOr_decimal 0 h
  rw [scanUlongOr] at h'
  split at h'
  · rename_i hnil
    rw [scanUlong, hnil, ← h']
    rfl
  · exact h'

/-! ## IPv4 -/

/-- One number of an address, cut to an octet, and the text behind it. -/
def scanOctet (s : Bytes) : Option (UInt8 × Bytes) :=
  if digitRun s = [] then none
  else some (UInt8.ofNat (scanUlong s), s.drop (digitRun s).length)

/-- The dot between two numbers. -/
def scanDot : Bytes → Option Bytes
  | 46 :: s => some s
  | _ => none

/-- `ip4_scan`: four numbers between dots; what follows the fourth is not looked at. -/
def ip4Scan (s : Bytes) : Option Bytes := do
  let (ip0, s) ← scanOctet s
  let (ip1, s) ← scanOctet (← scanDot s)
  let (ip2, s) ← scanOctet (← scanDot s)
  let (ip3, _) ← scanOctet (← scanDot s)
  some [ip0, ip1, ip2, ip3]

def ip4Fmt (a b c d : UInt8) : Bytes :=
  decimal a.toNat ++ 46 :: (decimal b.toNat ++ 46 :: (decimal c.toNat ++ 46 :: decimal d.toNat))

theorem scanOctet_decimal (b : UInt8) {rest : Bytes}
    (stop : ∀ c ∈ rest.head?, isDigit c = false) :
    scanOctet (decimal b.toNat ++ rest) = some (b, rest) := by
  have hrun := digitRun_append (decimal_digits b.toNat) stop
  have hvalue : scanUlong (decimal b.toNat ++ rest) = b.toNat := by
    have hlt := b.toNat_lt
    rw [scanUlong, hrun, digitsValue_decimal]
    omega
  rw [scanOctet, hrun, if_neg (decimal_ne_nil _), hvalue, List.drop_left, UInt8.ofNat_toNat]

theorem scanOctet_decimal_end (b : UInt8) : scanOctet (decimal b.toNat) = some (b, []) := by
  have h := @scanOctet_decimal b [] (fun _ h => by cases h)
  rwa [List.append_nil] at h

theorem ip4Scan_fmt (a b c d : UInt8) : ip4Scan (ip4Fmt a b c d) = some [a, b, c, d] := by
  have dot (s : Bytes) : ∀ x ∈ (46 :: s : Bytes).head?, isDigit x = false := by
    intro x hx
    cases hx
    rfl
  simp only [ip4Scan, ip4Fmt, scanOctet_decimal _ (dot _), scanDot, scanOctet_decimal_end,
    Option.bind_eq_bind, Option.bind_some]

/-! ## Flat IPv6 -/

/-- `tohex`: the lower-case digit of a value below 16. -/
def tohex (d : UInt8) : UInt8 := if d < 10 then 48 + d else 87 + d

def fromhex (c : UInt8) : Option UInt8 :=
  if 48 ≤ c ∧ c ≤ 57 then some (c - 48)
  else if 65 ≤ c ∧ c ≤ 70 then some (c - 55)
  else if 97 ≤ c ∧ c ≤ 102 then some (c - 87)
  else none

def hexPairs : Nat → Bytes → Option Bytes
  | 0, _ => some []
  | i + 1, c1 :: c2 :: s => do
    let hi ← fromhex c1
    let lo ← fromhex c2
    let ip ← hexPairs i s
    some ((hi * 16 + lo) :: ip)
  | _ + 1, _ => none

/-- `ip6_scan_flat`: the first 32 octets are hexadecimal digits. -/
def ip6ScanFlat (s : Bytes) : Option Bytes := hexPairs 16 s

def ip6FmtFlat (ip : Bytes) : Bytes := ip.flatMap fun b => [tohex (b / 16), tohex (b % 16)]

theorem fromhex_tohex : ∀ b : UInt8, fromhex (tohex (b / 16)) = some (b / 16) ∧
    fromhex (tohex (b % 16)) = some (b % 16) ∧ b / 16 * 16 + b % 16 = b := by
  decide +kernel

theorem hexPairs_fmt (ip : Bytes) : hexPairs ip.length (ip6FmtFlat ip) = some ip := by
  induction ip with
  | nil => rfl
  | cons b ip ih =>
    obtain ⟨hhi, hlo, hb⟩ := fromhex_tohex b
    rw [ip6FmtFlat] at ih
    simp only [ip6FmtFlat, List.flatMap_cons, List.cons_append, List.nil_append, List.length_cons,
      hexPairs, hhi, hlo, ih, Option.bind_eq_bind, Option.bind_some, hb]

theorem ip6ScanFlat_fmt {ip : Bytes} (whole : ip.length = 16) :
    ip6ScanFlat (ip6FmtFlat ip) = some ip := by
  rw [ip6ScanFlat, ← whole, hexPairs_fmt]

end TinyDnssec
