import TinyDnssec.Dd
import TinyDnssec.Ip6
import TinyDnssec.Respond

/-!
# rbldns

A list of addresses and networks. `rbldns-data` makes a key of each line, the network and the number
of its bits; `rbldns` turns the labels in front of its base around and tries the networks of the
address, from all 32 bits down to eight.

Why an address is on a list, and whether the list is the latest, is not a question here.
-/

namespace TinyDnssec.Rbldns

open Octets Loop Data

/-! ## `rbldns-data.c` -/

/-- The loop over the numbers of a line: their octets, and the text it stops at. Each number takes at
least one octet of text. -/
def numbers : Nat → Bytes → Bytes × Bytes
  | 0, s => ([], s)
  | rounds + 1, s =>
    if digitRun s = [] then ([], s)
    else
      let ch := UInt8.ofNat (scanUlong s)
      match s.drop (digitRun s).length with
      | 46 :: s => (ch :: (numbers rounds s).1, (numbers rounds s).2)
      | s => ([ch], s)

/-- A line that begins with a digit. -/
def addressRecord (line : Bytes) : CdbRecord :=
  let (tmp, s) := numbers line.length line
  let u := match s with
    | 47 :: s => scanUlong s
    | _ => 32
  ⟨(tmp ++ [0, 0, 0, 0]).take 4 ++ [UInt8.ofNat (min u 32)], []⟩

/-- A line that begins with a colon. `ip4_scan` returns 0 where it fails, which is what is expected of
an empty address: that leaves in `ip` what was there before. -/
def answerRecord (ip rest : Bytes) : Except Die (Bytes × CdbRecord) :=
  let j := (rest.takeWhile (· ≠ 58)).length
  if j ≥ rest.length then .error (.syntaxerror ": missing colon")
  else
    let (ip, i) := (Ip6.ip4ScanAt rest).getD (ip, 0)
    if i ≠ j then .error (.syntaxerror ": malformed IP address")
    else .ok (ip, ⟨[], ip ++ rest.drop (j + 1)⟩)

/-- One line, from what `ip` holds. -/
def compileLine (ip line : Bytes) : Except Die (Bytes × List CdbRecord) :=
  match trimLine line with
  | [] => .ok (ip, [])
  | c :: rest =>
    if c = 35 then .ok (ip, [])
    else if c = 58 then do
      let (ip, record) ← answerRecord ip rest
      .ok (ip, [record])
    else if isDigit c then .ok (ip, [addressRecord (c :: rest)])
    else .error (.syntaxerror ": unrecognized leading character")

def compileLines : Bytes → List Bytes → Except Die (List CdbRecord)
  | _, [] => .ok []
  | ip, line :: lines => do
    let (ip, records) ← compileLine ip line
    let more ← compileLines ip lines
    .ok (records ++ more)

/-- The loop over the networks: `ipnum` loses its low bits on the way. -/
def listed (records : List CdbRecord) : Nat → Nat → Nat → Bool
  | 0, _, _ => false
  | rounds + 1, i, ipnum =>
    let ipnum := ipnum >>> i <<< i
    if (findData records (be32 ipnum ++ [UInt8.ofNat (32 - i)])).isSome then true
    else listed records rounds (i + 1) ipnum

/-- The buffer `data`, up to `dlen`. -/
def theData (records : List CdbRecord) (ip : Bytes) : Bytes :=
  let data := match findData records [] with
    | some data => if data.length ≥ 4 then data.take 100 else [127, 0, 0, 2] ++ ascii "Listed $"
    | none => [127, 0, 0, 2] ++ ascii "Listed $"
  if data.length ≥ 5 ∧ data.getLast? = some 36 then
    data.dropLast ++ ip4Fmt (ip.getD 0 0) (ip.getD 1 0) (ip.getD 2 0) (ip.getD 3 0)
  else data

def addA (q : Name) (data : Bytes) (r : Response) : Build := do
  let r ← rstart false q dnsTA 2048 r
  let r ← addbytes (data.take 4) r
  .ok (rfinish .answer r)

def addTxt (q : Name) (data : Bytes) (r : Response) : Build := do
  let r ← rstart false q dnsTTxt 2048 r
  let r ← addbytes [UInt8.ofNat (data.length - 4)] r
  let r ← addbytes (data.drop 4) r
  .ok (rfinish .answer r)

def flagA (qtype : Bytes) : Bool := decide (qtype = dnsTA) || decide (qtype = dnsTAny)

def flagTxt (qtype : Bytes) : Bool := decide (qtype = dnsTTxt) || decide (qtype = dnsTAny)

/-- The records of the answer. -/
def answer (q : Name) (qtype data : Bytes) (r : Response) : Build :=
  (if flagA qtype then addA q data r else .ok r) >>= fun r =>
    if flagTxt qtype then addTxt q data r else .ok r

def doit (records : List CdbRecord) (base q : Name) (qtype : Bytes) (r : Response) :
    Except Halt Response :=
  if !flagA qtype && !flagTxt qtype then .ok (refuse r)
  else
    match Dnscache.dd q base with
    | some (4, reverseip) =>
      let ipnum := unle reverseip
      let ip := be32 ipnum
      if listed records 25 0 ipnum then
        match answer q qtype (theData records ip) r with
        | .error _ => .error .silent
        | .ok r => .ok r
      else .ok (nxdomain r)
    | _ => .ok (refuse r)

/-! ## What a data file says -/

/-- A number in decimal. -/
structure Number (t : Bytes) (n : Nat) : Prop where
  nonempty : t ≠ []
  digits : ∀ b ∈ t, isDigit b = true
  value : digitsValue t = n

/-- A complete dotted address. -/
inductive Dotted : Bytes → Bytes → Prop
  | mk {t₀ t₁ t₂ t₃ : Bytes} {a b c d : UInt8} (h₀ : Number t₀ a.toNat) (h₁ : Number t₁ b.toNat)
      (h₂ : Number t₂ c.toNat) (h₃ : Number t₃ d.toNat) :
      Dotted (t₀ ++ 46 :: (t₁ ++ 46 :: (t₂ ++ 46 :: t₃))) [a, b, c, d]

/-- A line `ip` or `ip/n`. -/
inductive Listing : Bytes → Bytes → Nat → Prop
  | address {s ip : Bytes} (hs : Dotted s ip) : Listing s ip 32
  | network {s ip t : Bytes} {n : Nat} (hs : Dotted s ip) (ht : Number t n) :
      Listing (s ++ 47 :: t) ip n

theorem not_digit_cons {c : UInt8} (h : isDigit c = false) (s : Bytes) :
    ∀ b ∈ (c :: s).head?, isDigit b = false := by
  intro b hb
  cases hb
  exact h

theorem Number.run {t rest : Bytes} {n : Nat} (h : Number t n)
    (stop : ∀ b ∈ rest.head?, isDigit b = false) : digitRun (t ++ rest) = t :=
  digitRun_append h.digits stop

theorem Number.scan {t rest : Bytes} {n : Nat} (h : Number t n) (small : n < 256)
    (stop : ∀ b ∈ rest.head?, isDigit b = false) : scanUlong (t ++ rest) = n := by
  unfold scanUlong
  rw [h.run stop, h.value]
  omega

theorem Number.scanOctet {t rest : Bytes} {a : UInt8} (h : Number t a.toNat)
    (stop : ∀ b ∈ rest.head?, isDigit b = false) :
    scanOctet (t ++ rest) = some (a, rest) := by
  unfold TinyDnssec.scanOctet
  rw [h.run stop, if_neg h.nonempty, h.scan a.toNat_lt stop, UInt8.ofNat_toNat, List.drop_left]

/-- A number that a dot follows. -/
theorem numbers_dot {t : Bytes} {a : UInt8} (h : Number t a.toNat) (rounds : Nat) (s : Bytes) :
    numbers (rounds + 1) (t ++ 46 :: s) = (a :: (numbers rounds s).1, (numbers rounds s).2) := by
  have stop := not_digit_cons (c := 46) rfl s
  rw [numbers, h.run stop, if_neg h.nonempty, h.scan a.toNat_lt stop, List.drop_left,
    UInt8.ofNat_toNat]
  rfl

/-- The last number. -/
theorem numbers_last {t rest : Bytes} {a : UInt8} (h : Number t a.toNat) (rounds : Nat)
    (stop : ∀ b ∈ rest.head?, isDigit b = false ∧ b ≠ 46) :
    numbers (rounds + 1) (t ++ rest) = ([a], rest) := by
  have run : ∀ b ∈ rest.head?, isDigit b = false := fun b hb => (stop b hb).1
  rw [numbers, h.run run, if_neg h.nonempty, h.scan a.toNat_lt run, List.drop_left,
    UInt8.ofNat_toNat]
  split
  · exact absurd rfl (stop 46 rfl).2
  · rfl

theorem numbers_dotted {s ip rest : Bytes} (h : Dotted s ip) {rounds : Nat} (enough : 4 ≤ rounds)
    (stop : ∀ b ∈ rest.head?, isDigit b = false ∧ b ≠ 46) :
    numbers rounds (s ++ rest) = (ip, rest) := by
  obtain ⟨rounds, rfl⟩ := Nat.exists_eq_add_of_le' enough
  obtain ⟨h₀, h₁, h₂, h₃⟩ := h
  simp only [List.append_assoc, List.cons_append]
  rw [numbers_dot h₀, numbers_dot h₁, numbers_dot h₂, numbers_last h₃ rounds stop]

theorem Dotted.length {s ip : Bytes} (h : Dotted s ip) : 4 ≤ s.length := by
  obtain ⟨h₀, h₁, h₂, h₃⟩ := h
  have p₀ := List.length_pos_iff.mpr h₀.nonempty
  simp only [List.length_append, List.length_cons]
  omega

theorem Dotted.four {s ip : Bytes} (h : Dotted s ip) : ip.length = 4 := by
  obtain ⟨h₀, h₁, h₂, h₃⟩ := h
  rfl

/-- What the compiler reads in a line of the list. -/
theorem Listing.numbers {line ip : Bytes} {n : Nat} (h : Listing line ip n) :
    ∃ rest, numbers line.length line = (ip, rest) ∧ ip.length = 4 ∧
      (rest = [] ∧ n = 32 ∨ ∃ t, rest = 47 :: t ∧ Number t n) := by
  cases h with
  | address hs =>
    refine ⟨[], ?_, hs.four, .inl ⟨rfl, rfl⟩⟩
    have read := @numbers_dotted line ip [] hs line.length hs.length fun b hb => by cases hb
    rw [List.append_nil] at read
    exact read
  | @network s _ t _ hs ht =>
    refine ⟨47 :: t, ?_, hs.four, .inr ⟨t, rfl, ht⟩⟩
    apply numbers_dotted hs
    · rw [List.length_append]
      exact Nat.le_add_right_of_le hs.length
    · intro b hb
      cases hb
      decide

theorem Listing.unique {line ip ip' : Bytes} {n n' : Nat} (h : Listing line ip n)
    (h' : Listing line ip' n') : ip = ip' ∧ n = n' := by
  obtain ⟨rest, read, -, number⟩ := h.numbers
  obtain ⟨rest', read', -, number'⟩ := h'.numbers
  rw [read] at read'
  cases read'
  refine ⟨rfl, ?_⟩
  obtain ⟨rfl, rfl⟩ | ⟨t, rfl, ht⟩ := number
  · obtain ⟨-, rfl⟩ | ⟨t', none, -⟩ := number'
    · rfl
    · cases none
  · obtain ⟨none, -⟩ | ⟨t', same, ht'⟩ := number'
    · cases none
    · cases same
      exact ht.value.symm.trans ht'.value

theorem Number.head {t : Bytes} {n : Nat} (h : Number t n) :
    ∃ c rest, t = c :: rest ∧ isDigit c = true := by
  cases t with
  | nil => exact absurd rfl h.nonempty
  | cons c rest => exact ⟨c, rest, rfl, h.digits c List.mem_cons_self⟩

theorem Dotted.head {s ip : Bytes} (h : Dotted s ip) :
    ∃ c rest, s = c :: rest ∧ isDigit c = true := by
  obtain ⟨h₀, -, -, -⟩ := h
  obtain ⟨c, rest, rfl, digit⟩ := h₀.head
  exact ⟨c, _, rfl, digit⟩

theorem Listing.head {line ip : Bytes} {n : Nat} (h : Listing line ip n) :
    ∃ c rest, line = c :: rest ∧ isDigit c = true := by
  cases h with
  | address hs => exact hs.head
  | network hs ht =>
    obtain ⟨c, rest, rfl, digit⟩ := hs.head
    exact ⟨c, _, rfl, digit⟩

theorem ip4ScanAt_dotted {s ip rest : Bytes} (h : Dotted s ip)
    (stop : ∀ b ∈ rest.head?, isDigit b = false) :
    Ip6.ip4ScanAt (s ++ rest) = some (ip, s.length) := by
  have length : (s ++ rest).length - rest.length = s.length := by
    rw [List.length_append, Nat.add_sub_cancel]
  rw [← length]
  obtain ⟨h₀, h₁, h₂, h₃⟩ := h
  have dot (s : Bytes) : ∀ b ∈ (46 :: s).head?, isDigit b = false := not_digit_cons rfl s
  simp only [List.append_assoc, List.cons_append, Ip6.ip4ScanAt, h₀.scanOctet (dot _), scanDot,
    h₁.scanOctet (dot _), h₂.scanOctet (dot _), h₃.scanOctet stop, Option.bind_eq_bind,
    Option.bind_some]

theorem Number.no_colon {t : Bytes} {n : Nat} (h : Number t n) : ∀ b ∈ t, b ≠ 58 := by
  rintro b hb rfl
  have digit := h.digits 58 hb
  cases digit

theorem Dotted.no_colon {s ip : Bytes} (h : Dotted s ip) : ∀ b ∈ s, b ≠ 58 := by
  obtain ⟨h₀, h₁, h₂, h₃⟩ := h
  intro b hb
  simp only [List.mem_append, List.mem_cons] at hb
  obtain hb | rfl | hb | rfl | hb | rfl | hb := hb
  · exact h₀.no_colon b hb
  · decide
  · exact h₁.no_colon b hb
  · decide
  · exact h₂.no_colon b hb
  · decide
  · exact h₃.no_colon b hb

theorem Listing.octets {line ip : Bytes} {n : Nat} (h : Listing line ip n) :
    ∃ a b c d, ip = [a, b, c, d] := by
  cases h with
  | address hs =>
    cases hs
    exact ⟨_, _, _, _, rfl⟩
  | network hs ht =>
    cases hs
    exact ⟨_, _, _, _, rfl⟩

/-- The records of a positive answer. -/
def entries (q : Name) (qtype data : Bytes) : List Entry :=
  (if flagA qtype then [⟨q, dnsTA, dnsCIn, 2048, [.octets (data.take 4)]⟩] else []) ++
    if flagTxt qtype then
      [⟨q, dnsTTxt, dnsCIn, 2048,
        [.octets [UInt8.ofNat (data.length - 4)], .octets (data.drop 4)]⟩]
    else []

section

variable {q question : Name} {r : Response} {log : Log} {data : Bytes}

end

/-! ## The list -/

end TinyDnssec.Rbldns
