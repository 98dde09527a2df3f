import TinyDnssec.Dd
import TinyDnssec.Respond

/-!
# walldns

`walldns.c` answers for addresses without a database: a name that spells an address has this address,
whether it is written forward or under `in-addr.arpa`, and the reverse names point to themselves. So a
client that looks up the name of an address, and then the address of that name, finds what it began
with.

Whether anybody has an address is not a question here.
-/

namespace TinyDnssec.Walldns

open Octets Loop Data

/-! ## `walldns.c` -/

def flagPtr (qtype : Bytes) : Bool := decide (qtype = dnsTPtr) || decide (qtype = dnsTAny)

def inAddrArpa : Name := [ascii "in-addr", ascii "arpa"]

/-- Calls of `response_addbytes`, one after the other. -/
def addPieces : List Bytes → Response → Build
  | [], r => .ok r
  | s :: pieces, r => addbytes s r >>= addPieces pieces

def addAddress (q : Name) (pieces : List Bytes) (r : Response) : Build := do
  let r ← rstart false q dnsTA 655360 r
  let r ← addPieces pieces r
  .ok (rfinish .answer r)

def addPointer (q : Name) (r : Response) : Build := do
  let r ← rstart false q dnsTPtr 655360 r
  let r ← addname q r
  .ok (rfinish .answer r)

/-- The octets of an address one by one, the last one first. -/
def backward (ip : Bytes) : List Bytes :=
  [(ip.drop 3).take 1, (ip.drop 2).take 1, (ip.drop 1).take 1, ip.take 1]

def respond (q : Name) (qtype : Bytes) (r : Response) : Build :=
  if flagA qtype || flagPtr qtype then
    match Dnscache.dd q [] with
    | some (4, ip) => if flagA qtype then addAddress q [ip] r else .ok r
    | _ =>
      match Dnscache.dd q inAddrArpa with
      | some (j, ip) =>
        (if flagA qtype ∧ j = 4 then addAddress q (backward ip) r else .ok r) >>= fun r =>
          if flagPtr qtype then addPointer q r else .ok r
      | none => .ok (refuse r)
  else .ok (refuse r)

/-! ## The records -/

def addressOf (q : Name) (ip : Bytes) : Entry := ⟨q, dnsTA, dnsCIn, 655360, [.octets ip]⟩

def pointerOf (q : Name) : Entry := ⟨q, dnsTPtr, dnsCIn, 655360, [.name q]⟩

/-- Octets that are added piece by piece are the octets that are added at once. -/
theorem PartsAt.joined {m : Memory} {pos stop : Nat} {pieces : List Bytes}
    (h : PartsAt m pos (pieces.map .octets) stop) : PartsAt m pos [.octets pieces.flatten] stop := by
  induction pieces generalizing pos with
  | nil => exact ⟨holds_nil m pos, h⟩
  | cons s pieces ih =>
    obtain ⟨here, rest⟩ := h
    obtain ⟨there, ends⟩ := ih rest
    refine ⟨holds_append.mpr ⟨here, there⟩, ?_⟩
    rw [List.flatten_cons, List.length_append, ← Nat.add_assoc]
    exact ends

section

variable {q question : Name} {r : Response} {log : Log}

theorem addPieces_spec {pieces : List Bytes} {r₀ : Response} {f : Nat} {e : Entry}
    (pending : Pending r₀ r question log f e)
    (room : r.bytes.length + pieces.flatten.length ≤ 65535) :
    ∃ r', addPieces pieces r = .ok r' ∧
      Pending r₀ r' question log f { e with rdata := e.rdata ++ pieces.map .octets } ∧
      r'.bytes.length = r.bytes.length + pieces.flatten.length := by
  induction pieces generalizing r e with
  | nil =>
    refine ⟨r, rfl, ?_, rfl⟩
    rw [List.map_nil, List.append_nil]
    exact pending
  | cons s pieces ih =>
    rw [List.flatten_cons, List.length_append] at room ⊢
    have added := @addbytes_room s r (by omega)
    obtain ⟨r', run, filled, size⟩ := ih (pending.addbytes added) (by
      rw [List.length_append]
      omega)
    refine ⟨r', ?_, ?_, ?_⟩
    · unfold addPieces
      rw [added]
      exact run
    · rw [List.append_assoc] at filled
      exact filled
    · rw [size, List.length_append, Nat.add_assoc]

theorem addAddress_spec (hq : Valid q) (idle : Idle r question log) (isOpen : log.Open .answer)
    (room : r.bytes.length + 300 ≤ 65535) {pieces : List Bytes} (four : pieces.flatten.length = 4) :
    ∃ r', addAddress q pieces r = .ok r' ∧
      Idle r' question (log.add .answer [addressOf q pieces.flatten]) ∧ Extends r r' ∧
      r'.bytes.length ≤ r.bytes.length + 300 := by
  have short := hq.short
  obtain ⟨r₁, started, size⟩ := @rstart_room q dnsTA rfl 655360 r (by omega)
  obtain ⟨f, pending⟩ := rstart_spec idle hq rfl started
  obtain ⟨r₂, added, filled, grown⟩ := @addPieces_spec _ _ _ pieces _ _ _ pending (by omega)
  have joined : Pending r r₂ question log f (addressOf q pieces.flatten) :=
    { filled with parts := PartsAt.joined filled.parts }
  refine ⟨_, bind_eq_ok.mpr ⟨r₁, started, bind_eq_ok.mpr ⟨r₂, added, rfl⟩⟩, joined.rfinish isOpen,
    joined.extends .answer, ?_⟩
  rw [joined.rfinish_length, grown]
  omega

theorem addPointer_spec (hq : Valid q) (idle : Idle r question log) (isOpen : log.Open .answer)
    (room : r.bytes.length + 600 ≤ 65535) :
    ∃ r', addPointer q r = .ok r' ∧ Idle r' question (log.add .answer [pointerOf q]) ∧
      Extends r r' := by
  have short := hq.short
  obtain ⟨r₁, started, size⟩ := @rstart_room q dnsTPtr rfl 655360 r (by omega)
  obtain ⟨f, pending⟩ := rstart_spec idle hq rfl started
  obtain ⟨r₂, added, -, -⟩ := @addname_room q r₁ (by omega)
  have filled := pending.addname hq added
  exact ⟨_, bind_eq_ok.mpr ⟨r₁, started, bind_eq_ok.mpr ⟨r₂, added, rfl⟩⟩, filled.rfinish isOpen,
    filled.extends .answer⟩

end

/-! ## Which names spell an address -/

/-- The labels that spell an address, in its own order. -/
def spelled (ip : Bytes) : Name := ip.map fun b => decimal b.toNat

theorem spelled_valid {ip : Bytes} (four : ip.length ≤ 4) : Valid (spelled ip) := by
  apply @valid_of_short _ 3
  · intro l hl
    obtain ⟨b, -, rfl⟩ := List.mem_map.mp hl
    exact ⟨decimal_ne_nil _, decimal_length_le (b.toNat_lt.trans (by decide))⟩
  · unfold spelled
    rw [List.length_map]
    omega
  · decide

theorem inAddrArpa_valid : Valid inAddrArpa :=
  (@dnsName4Domain_valid [0, 0, 0, 0] rfl).suffix (List.suffix_append _ _)

/-- A number has no case. -/
theorem lower_decimal (n : Nat) : lower (decimal n) = decimal n := by
  have same : ∀ b ∈ decimal n, lowerByte b = b := by
    intro b hb
    have digit := decimal_digits n b hb
    simp only [isDigit, Bool.and_eq_true, decide_eq_true_iff] at digit
    exact lowerByte_of_lt (lt_of_le_of_lt digit.2 (by decide))
  unfold lower
  rw [List.map_congr_left same, List.map_id']

/-- No other label is lowered to a number. -/
theorem eq_decimal_of_lower {l : Label} {n : Nat} (h : lower l = decimal n) : l = decimal n := by
  rw [← h]
  unfold lower
  symm
  apply (List.map_congr_left ?_).trans (List.map_id l)
  intro b hb
  have digit := decimal_digits n (lowerByte b) (h ▸ List.mem_map_of_mem hb)
  simp only [isDigit, Bool.and_eq_true, decide_eq_true_iff] at digit
  unfold lowerByte at digit ⊢
  split
  · rename_i capital
    rw [if_pos capital, UInt8.le_iff_toNat_le, UInt8.le_iff_toNat_le, UInt8.toNat_add] at digit
    rw [UInt8.le_iff_toNat_le, UInt8.le_iff_toNat_le] at capital
    change _ ∧ (b.toNat + 32) % 256 ≤ 57 at digit
    change 65 ≤ b.toNat ∧ b.toNat ≤ 90 at capital
    omega
  · rfl

/-- Under `in-addr.arpa`, in whatever letter case, stand the labels of some octets. -/
def Reverse (ip : Bytes) (q : Name) : Prop :=
  ∃ tail, q = spelled ip ++ tail ∧ lowerName tail = lowerName inAddrArpa ∧ ip.length ≤ 4

theorem dd_root_iff {q : Name} (hq : Valid q) {j : Nat} {ip : Bytes} :
    Dnscache.dd q [] = some (j, ip) ↔ q = spelled ip ∧ j = ip.length ∧ j ≤ 4 := by
  rw [Dnscache.dd_iff Valid.nil hq]
  constructor
  · rintro ⟨tail, parts, same, count, few⟩
    have bare : tail = [] := List.map_eq_nil_iff.mp same
    rw [bare, List.append_nil] at parts
    exact ⟨parts, count, few⟩
  · rintro ⟨parts, count, few⟩
    exact ⟨[], parts.trans (List.append_nil _).symm, rfl, count, few⟩

theorem dd_reverse_iff {q : Name} (hq : Valid q) {j : Nat} {ip : Bytes} :
    Dnscache.dd q inAddrArpa = some (j, ip) ↔ Reverse ip q ∧ j = ip.length := by
  rw [Dnscache.dd_iff inAddrArpa_valid hq]
  constructor
  · rintro ⟨tail, parts, same, rfl, few⟩
    exact ⟨⟨tail, parts, same, few⟩, rfl⟩
  · rintro ⟨⟨tail, parts, same, few⟩, rfl⟩
    exact ⟨tail, parts, same, rfl, few⟩

/-- The last label of a reverse name is no number. -/
theorem Reverse.not_spelled {ip ip' : Bytes} {q : Name} (h : Reverse ip q) : q ≠ spelled ip' := by
  obtain ⟨tail, rfl, same, -⟩ := h
  intro equal
  have arpa : ascii "arpa" ∈ lowerName tail := by
    rw [same]
    decide
  obtain ⟨l, hl, lowered⟩ := List.mem_map.mp arpa
  have number : l ∈ spelled ip' := equal ▸ List.mem_append_right _ hl
  obtain ⟨b, -, rfl⟩ := List.mem_map.mp number
  rw [lower_decimal] at lowered
  have digit := decimal_digits b.toNat 97
  rw [lowered] at digit
  exact absurd (digit (by decide)) (by decide)

theorem eq_spelled_of_lower {n : Name} {ip : Bytes} (h : lowerName n = spelled ip) :
    n = spelled ip := by
  induction n generalizing ip with
  | nil => exact h
  | cons l n ih =>
    cases ip with
    | nil => cases h
    | cons b ip =>
      obtain ⟨label, rest⟩ := List.cons.inj h
      rw [eq_decimal_of_lower label, ih rest]
      rfl

/-- What `dns_name4_domain` makes, in whatever letter case, is a reverse name. -/
theorem Reverse.of_domain {ip : Bytes} (four : ip.length = 4) {q : Name}
    (h : lowerName q = lowerName (dnsName4Domain ip)) : Reverse ip.reverse q := by
  have numbers : lowerName (spelled ip.reverse) = spelled ip.reverse := by
    unfold lowerName spelled
    rw [List.map_map]
    exact List.map_congr_left fun b _ => lower_decimal b.toNat
  have parts : lowerName q = spelled ip.reverse ++ lowerName inAddrArpa := by
    rw [h, ← numbers, ← lowerName_append]
    rfl
  unfold lowerName at parts
  obtain ⟨front, tail, rfl, spells, same⟩ := List.map_eq_append_iff.mp parts
  refine ⟨tail, ?_, same, ?_⟩
  · rw [eq_spelled_of_lower spells]
  · rw [List.length_reverse, four]

theorem backward_flatten {ip : Bytes} (four : ip.length = 4) : (backward ip).flatten = ip.reverse := by
  match ip with
  | [_, _, _, _] => rfl

/-! ## The answers -/

/-- The reply to a question, with no other records than these. -/
def Answered (q : Name) (qtype : Bytes) (question : Name) (r : Response) (es : List Entry) : Prop :=
  ∃ r', respond q qtype r = .ok r' ∧ Extends r r' ∧ Says r'.bytes question { answer := es }

section

variable {q question : Name} {qtype : Bytes} {r : Response}

/-- A name that spells an address has it. -/
theorem respond_forward (asked : Asked r question) (served : (flagA qtype || flagPtr qtype) = true)
    {ip : Bytes} (four : ip.length = 4) :
    Answered (spelled ip) qtype question r
      (if flagA qtype then [addressOf (spelled ip) ip] else []) := by
  have hq := spelled_valid four.le
  have read := (@dd_root_iff _ hq 4 ip).mpr ⟨rfl, four.symm, Nat.le_refl 4⟩
  have short := asked.short
  unfold Answered respond
  rw [if_pos served, read]
  simp only []
  by_cases address : flagA qtype = true
  · have whole : [ip].flatten.length = 4 := by rw [List.flatten_singleton, four]
    obtain ⟨r', run, idle, extended, -⟩ :=
      addAddress_spec hq asked.idle ⟨rfl, rfl⟩ (by omega) whole
    rw [List.flatten_singleton] at idle
    rw [if_pos address, if_pos address]
    exact ⟨r', run, extended, idle.message⟩
  · rw [if_neg address, if_neg address]
    exact ⟨r, rfl, .refl r, asked.idle.message⟩

/-- A reverse name points to itself, and with four numbers it has the address they turn into. -/
theorem respond_reverse (hq : Valid q) (asked : Asked r question)
    (served : (flagA qtype || flagPtr qtype) = true) {ip : Bytes} (h : Reverse ip q) :
    Answered q qtype question r
      ((if flagA qtype ∧ ip.length = 4 then [addressOf q ip.reverse] else []) ++
        if flagPtr qtype then [pointerOf q] else []) := by
  have read := (dd_reverse_iff hq).mpr ⟨h, rfl⟩
  have short := asked.short
  have first : ∃ r₁, (if flagA qtype ∧ ip.length = 4 then addAddress q (backward ip) r else .ok r) =
        .ok r₁ ∧ Idle r₁ question { answer := if flagA qtype ∧ ip.length = 4 then
          [addressOf q ip.reverse] else [] } ∧ Extends r r₁ ∧ r₁.bytes.length ≤ r.bytes.length + 300 := by
    split
    · rename_i address
      have turned := backward_flatten address.2
      have four : (backward ip).flatten.length = 4 := by
        rw [turned, List.length_reverse, address.2]
      have added := addAddress_spec hq asked.idle ⟨rfl, rfl⟩ (by omega) four
      rw [turned] at added
      exact added
    · exact ⟨r, rfl, asked.idle, .refl r, Nat.le_add_right _ 300⟩
  obtain ⟨r₁, run, idle, extended, size⟩ := first
  have forward : ∀ ip', Dnscache.dd q [] ≠ some (4, ip') := by
    intro ip' some
    exact h.not_spelled ((dd_root_iff hq).mp some).1
  have second : respond q qtype r = (if flagPtr qtype then addPointer q r₁ else .ok r₁) := by
    unfold respond
    rw [if_pos served]
    split
    · rename_i ip' some
      exact absurd some (forward ip')
    · rw [read]
      simp only []
      rw [run]
      rfl
  unfold Answered
  rw [second]
  by_cases pointer : flagPtr qtype = true
  · obtain ⟨r', run', idle', extended'⟩ := addPointer_spec hq idle ⟨rfl, rfl⟩ (by omega)
    rw [if_pos pointer, if_pos pointer]
    exact ⟨r', run', extended.trans extended', idle'.message⟩
  · rw [if_neg pointer, if_neg pointer, List.append_nil]
    exact ⟨r₁, rfl, extended, idle.message⟩

end

/-- **`dd` turns dotted decimal around.** It reads exactly the numbers in front of a base, so it takes
apart what `dns_name4_domain` makes. The reverse name of an address points to a name that has this
address, and so has the name that spells it forward. -/
theorem dd_inverse :
    (∀ q base : Name, Valid q → Valid base → ∀ (j : Nat) (ip : Bytes),
      Dnscache.dd q base = some (j, ip) ↔ ∃ tail : Name, q = ip.map (fun x => decimal x.toNat) ++ tail ∧
        lowerName tail = lowerName base ∧ j = ip.length ∧ j ≤ 4) ∧
      (∀ a b c d, Dnscache.dd (dnsName4Domain [a, b, c, d]) inAddrArpa = some (4, [d, c, b, a])) ∧
      ∀ (a b c d : UInt8) (q question : Name) (r : Response), Valid q →
        lowerName q = lowerName (dnsName4Domain [a, b, c, d]) → Asked r question →
        Answered q dnsTPtr question r [pointerOf q] ∧
        Answered q dnsTA question r [addressOf q [a, b, c, d]] ∧
        Answered (spelled [a, b, c, d]) dnsTA question r
          [addressOf (spelled [a, b, c, d]) [a, b, c, d]] := by
  refine ⟨?_, ?_, ?_⟩
  · intro q base hq hbase j ip
    exact Dnscache.dd_iff hbase hq
  · intro a b c d
    exact (dd_reverse_iff (dnsName4Domain_valid rfl)).mpr ⟨.of_domain rfl rfl, rfl⟩
  · intro a b c d q question r hq named asked
    have reverse : Reverse [d, c, b, a] q := Reverse.of_domain rfl named
    exact ⟨respond_reverse hq asked rfl reverse, respond_reverse hq asked rfl reverse,
      respond_forward asked rfl rfl⟩

/-- The reverse name of 10.0.0.1. -/
def reverseName : Name := dnsName4Domain [10, 0, 0, 1]

theorem dd_inverse_reverseName :
    Dnscache.dd reverseName [ascii "arpa"] = none ∧
      Dnscache.dd reverseName [ascii "10", ascii "IN-ADDR", ascii "ARPA"] = some (3, [1, 0, 0]) ∧
      ∃ r, Answered reverseName dnsTPtr reverseName r [pointerOf reverseName] ∧
        Answered reverseName dnsTA reverseName r [addressOf reverseName [10, 0, 0, 1]] := by
  have valid : Valid reverseName := dnsName4Domain_valid rfl
  obtain ⟨exact, -, consistent⟩ := dd_inverse
  obtain ⟨r, -, asked⟩ := @responseQuery_asked reverseName valid dnsTA dnsCIn rfl rfl ⟨[], [], 0, 0⟩
  obtain ⟨pointer, address, -⟩ := consistent 10 0 0 1 reverseName reverseName r valid rfl asked
  have capitals : Valid [ascii "10", ascii "IN-ADDR", ascii "ARPA"] := by decide +kernel
  refine ⟨by decide +kernel, ?_, r, pointer, address⟩
  exact (exact _ _ valid capitals 3 [1, 0, 0]).mpr ⟨[ascii "10", ascii "in-addr", ascii "arpa"],
    by decide +kernel, by decide +kernel, rfl, by decide⟩

end TinyDnssec.Walldns
