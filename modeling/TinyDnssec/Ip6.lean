import TinyDnssec.Data.Scan
import TinyDnssec.Query.Glue

/-!
# IPv6 addresses in text

`ip6_fmt.c` and `ip6_scan.c`. The printer looks at the word behind the one it prints to see whether a
run of zero words begins, also when it prints the last one; the scanner counts the octets it has
read apart from the pointer it moves, and takes one off the count when nothing follows a double
colon. So the two are inverse to each other only for addresses in which a run of zeroes ends right
before the last word, and for those that are printed as IPv4 addresses.

An address is what the pointer that `ip6_fmt` is given points to: to read behind the octets there are
is no result.
-/

namespace TinyDnssec.Ip6

open Octets

/-! ## The functions -/

/-- `fmt_xlong`, and what `scan_xlong` returns and stores. -/
structure Xlong where
  fmt : Nat → Bytes
  scan : Bytes → Nat × Nat

/-- `ip4_scan`: the address, and how many octets it was read from. -/
def ip4ScanAt (s : Bytes) : Option (Bytes × Nat) := do
  let (ip0, t) ← scanOctet s
  let (ip1, t) ← scanOctet (← scanDot t)
  let (ip2, t) ← scanOctet (← scanDot t)
  let (ip3, t) ← scanOctet (← scanDot t)
  some ([ip0, ip1, ip2, ip3], s.length - t.length)

/-- The two octets of a word, at an even place. -/
def word (ip : Bytes) (j : Nat) : Option Nat :=
  match ip[j]?, ip[j + 1]? with
  | some hi, some lo => some (hi.toNat * 256 + lo.toNat)
  | _, _ => none

/-- `ip6_isv4mapped` -/
def Mapped (ip : Bytes) : Prop := ip.take 12 = Dnscache.v4mappedprefix

instance : DecidablePred Mapped := fun ip =>
  inferInstanceAs (Decidable (ip.take 12 = Dnscache.v4mappedprefix))

/-- The variables of `ip6_fmt`, with the text so far. -/
structure Fmt where
  compressing : Bool
  compressed : Nat
  text : Bytes

variable (x : Xlong)

/-- The body of the loop for a word and, unless a run is being left out, the word behind it. -/
def Fmt.put (f : Fmt) (j temp temp0 : Nat) : Fmt :=
  if temp = 0 ∧ temp0 = 0 ∧ f.compressed = 0 then
    if f.compressing then f
    else { f with compressing := true, text := if j = 0 then f.text ++ [58] else f.text }
  else
    let text := (if f.compressing then f.text ++ [58] else f.text) ++ x.fmt temp
    { compressing := false
      compressed := if f.compressing then f.compressed + 1 else f.compressed
      text := if j < 14 then text ++ [58] else text }

/-- The loop from the word at `j` on. The words before an IPv4 address end in `ffff`, so that nothing
is being left out where the loop breaks. -/
def fmtLoop (ip : Bytes) : Nat → Nat → Fmt → Option Bytes
  | 0, _, f => some (if f.compressing then f.text ++ [58] else f.text)
  | n + 1, j, f =>
    if j = 12 ∧ Mapped ip then
      match ip[12]?, ip[13]?, ip[14]?, ip[15]? with
      | some a, some b, some c, some d => some (f.text ++ ip4Fmt a b c d)
      | _, _, _, _ => none
    else
      match word ip j, if f.compressing then some 0 else word ip (j + 2) with
      | some temp, some temp0 => fmtLoop ip n (j + 2) (f.put x j temp temp0)
      | _, _ => none

def ip6Fmt (ip : Bytes) : Option Bytes := fmtLoop x ip 8 0 ⟨false, 0, []⟩

/-- The end of `ip6_scan`: the octets before a double colon, zeroes, and the octets behind it. -/
def spread (before suffix : Bytes) : Bytes :=
  (before ++ List.replicate (16 - before.length) 0).take (16 - suffix.length) ++ suffix

/-- Part 2 of `ip6_scan`, behind a double colon. Every round adds two octets to the address, of which
there are less than sixteen. -/
def scanBehind (before : Bytes) : Nat → Bytes → Nat → Nat → Bytes → Nat × Bytes
  | 0, _, len, _, suffix => (len, spread before suffix)
  | rounds + 1, s, len, prefixlen, suffix =>
    if s.head? = some 58 ∧ suffix = [] ∨ s.head? ≠ some 58 ∧ suffix ≠ [] then
      (len, spread before suffix)
    else
      let skip := if s.head? = some 58 then 1 else 0
      let s := s.drop skip
      let len := len + skip
      let (i, u) := x.scan s
      if i = 0 then (len - 1, spread before suffix)
      else
        let dotted := suffix.length + prefixlen ≤ 12 ∧ (s.drop i).head? = some 46
        match if dotted then ip4ScanAt s else none with
        | some (ip4, j) => (len + j, spread before (suffix ++ ip4))
        | none =>
          -- a dot that no IPv4 address explains: make the test at the end true
          let prefixlen := if dotted then 12 - suffix.length else prefixlen
          let suffix := suffix ++ be16 u
          if prefixlen + suffix.length = 16 then (len + i, spread before suffix)
          else scanBehind before rounds (s.drop i) (len + i) prefixlen suffix

/-- Part 1 of `ip6_scan`: words up to a double colon, or all of them. -/
def scanWords : Nat → Bytes → Nat → Bytes → Option (Nat × Bytes)
  | 0, _, _, _ => none
  | rounds + 1, s, len, before =>
    if s.head? = some 58 ∧ (s.drop 1).head? = some 58 then
      some (scanBehind x before 8 (s.drop 2) (len + 2) before.length [])
    else
      let skip := if s.head? = some 58 then 1 else 0
      let s := s.drop skip
      let len := len + skip
      let (i, u) := x.scan s
      if i = 0 then none
      else if before.length = 12 ∧ (s.drop i).head? = some 46 then
        (ip4ScanAt s).map fun (ip4, i) => (i + len, before ++ ip4)
      else
        let before := before ++ be16 u
        if before.length = 16 then some (len + i, before)
        else scanWords rounds (s.drop i) (len + i) before

/-- How many octets were read, and the address; nothing, where the source returns 0. -/
def ip6Scan (s : Bytes) : Option (Nat × Bytes) :=
  match ip4ScanAt s with
  | some (ip4, i) =>
    some (i, (if ip4 = [0, 0, 0, 0] then List.replicate 12 0 else Dnscache.v4mappedprefix) ++ ip4)
  | none => scanWords x 8 s 0 []

/-! ## The round trip -/

def isHexDigit (b : UInt8) : Bool := (fromhex b).isSome

/-- `fmt_xlong` prints numbers as hexadecimal digits, and `scan_xlong` reads the longest run of them:
what is printed reads back. -/
structure Xlong.Exact (x : Xlong) : Prop where
  digits : ∀ u, x.fmt u ≠ [] ∧ ∀ b ∈ x.fmt u, isHexDigit b = true
  run : ∀ s, (x.scan s).1 = (s.takeWhile isHexDigit).length
  back : ∀ u < 65536, ∀ rest : Bytes, (∀ b ∈ rest.head?, isHexDigit b = false) →
    (x.scan (x.fmt u ++ rest)).2 = u

/-- What cannot continue an address. -/
def EndsAddress (rest : Bytes) : Prop :=
  ∀ b ∈ rest.head?, isHexDigit b = false ∧ b ≠ 58 ∧ b ≠ 46

/-- The printer reads the sixteen octets only, and the scanner reads what it printed. -/
def RoundTrip (ip : Bytes) : Prop :=
  ∃ text, ip6Fmt x ip = some text ∧ (∀ more, ip6Fmt x (ip ++ more) = some text) ∧
    ∀ rest, EndsAddress rest → ip6Scan x (text ++ rest) = some (text.length, ip)

def wordAt (ip : Bytes) (i : Nat) : Nat := (word ip (2 * i)).getD 0

/-- The first two zero words in a row begin a run that ends in front of the last word. -/
def Squeezed (ip : Bytes) : Prop :=
  ∃ k ≤ 5, (∀ i < k, ¬ (wordAt ip i = 0 ∧ wordAt ip (i + 1) = 0)) ∧
    (∀ i, k ≤ i → i ≤ 6 → wordAt ip i = 0) ∧ wordAt ip 7 ≠ 0

/-! ## Printing -/

/-- Words that are not left out, each with its colon. -/
def colons (ws : List Nat) : Bytes := ws.flatMap fun w => x.fmt w ++ [58]

section Printing

variable {x} {m : Bytes}

theorem fmtLoop_round {n j temp temp0 : Nat} {f : Fmt} (plain : ¬ (j = 12 ∧ Mapped m))
    (here : word m j = some temp)
    (ahead : f.compressing = true ∧ temp0 = 0 ∨ f.compressing = false ∧ word m (j + 2) = some temp0) :
    fmtLoop x m (n + 1) j f = fmtLoop x m n (j + 2) (f.put x j temp temp0) := by
  rw [fmtLoop, if_neg plain, here]
  rcases ahead with ⟨on, rfl⟩ | ⟨off, next⟩
  · rw [on, if_pos rfl]
  · rw [off, if_neg Bool.false_ne_true, next]

theorem put_shown {c j temp temp0 : Nat} {t : Bytes} (shown : ¬ (temp = 0 ∧ temp0 = 0 ∧ c = 0)) :
    Fmt.put x ⟨false, c, t⟩ j temp temp0 =
      ⟨false, c, if j < 14 then t ++ x.fmt temp ++ [58] else t ++ x.fmt temp⟩ := by
  rw [Fmt.put, if_neg shown]
  rfl

theorem put_left {j : Nat} {t : Bytes} : Fmt.put x ⟨true, 0, t⟩ j 0 0 = ⟨true, 0, t⟩ := rfl

theorem put_begin {j : Nat} {t : Bytes} : Fmt.put x ⟨false, 0, t⟩ j 0 0 =
    ⟨true, 0, if j = 0 then t ++ [58] else t⟩ := rfl

theorem put_end {j temp : Nat} {t : Bytes} (shown : temp ≠ 0) : Fmt.put x ⟨true, 0, t⟩ j temp 0 =
    ⟨false, 1, if j < 14 then t ++ [58] ++ x.fmt temp ++ [58] else t ++ [58] ++ x.fmt temp⟩ := by
  rw [Fmt.put, if_neg fun h => shown h.1]
  rfl

variable {w : Nat → Nat} (words : ∀ i < 8, word m (2 * i) = some (w i))
include words

/-- The words in front of the first two zero words in a row. -/
theorem fmtLoop_front {k : Nat} (seven : k ≤ 7) (plain : k = 7 → ¬ Mapped m)
    (apart : ∀ i < k, ¬ (w i = 0 ∧ w (i + 1) = 0)) :
    fmtLoop x m 8 0 ⟨false, 0, []⟩ =
      fmtLoop x m (8 - k) (2 * k) ⟨false, 0, colons x ((List.range k).map w)⟩ := by
  induction k with
  | zero => rfl
  | succ k ih =>
    rw [ih (by omega) (by omega) fun i hi => apart i (by omega)]
    have left : 8 - k = 8 - (k + 1) + 1 := by omega
    have early : 2 * k < 14 := by omega
    rw [left, fmtLoop_round (fun h => plain (by omega) h.2) (words k (by omega))
      (.inr ⟨rfl, words (k + 1) (by omega)⟩), put_shown fun h => apart k (by omega) ⟨h.1, h.2.1⟩,
      if_pos early, colons, colons, List.range_succ, List.map_append, List.flatMap_append]
    simp only [List.map_cons, List.map_nil, List.flatMap_cons, List.flatMap_nil, List.append_nil,
      List.append_assoc]
    rfl

/-- The zero words that are left out. -/
theorem fmtLoop_zeros {k n : Nat} {t : Bytes} (eight : k + n ≤ 8)
    (plain : 6 < k + n → ¬ Mapped m) (zeros : ∀ i, k ≤ i → i < k + n → w i = 0) :
    fmtLoop x m (8 - k) (2 * k) ⟨true, 0, t⟩ =
      fmtLoop x m (8 - (k + n)) (2 * (k + n)) ⟨true, 0, t⟩ := by
  induction n with
  | zero => rfl
  | succ n ih =>
    rw [ih (by omega) (fun h => plain (by omega)) fun i lo hi => zeros i lo (by omega)]
    have left : 8 - (k + n) = 8 - (k + (n + 1)) + 1 := by omega
    have zero := zeros (k + n) (by omega) (by omega)
    rw [left, fmtLoop_round (fun h => plain (by omega) h.2) (words (k + n) (by omega))
      (.inl ⟨rfl, rfl⟩), zero, put_left]
    rfl

/-- From the first two zero words in a row to the next word that is shown. -/
theorem fmtLoop_run {k n : Nat} (six : k ≤ 6) (plain : ¬ Mapped m ∨ k + n ≤ 6)
    (eight : k + n ≤ 8) (two : 2 ≤ n)
    (apart : ∀ i < k, ¬ (w i = 0 ∧ w (i + 1) = 0)) (zeros : ∀ i, k ≤ i → i < k + n → w i = 0) :
    ip6Fmt x m = fmtLoop x m (8 - (k + n)) (2 * (k + n)) ⟨true, 0,
      colons x ((List.range k).map w) ++ if k = 0 then [58] else []⟩ := by
  have unmapped (h : 6 < k + n) : ¬ Mapped m := plain.resolve_right (by omega)
  have first := zeros k (Nat.le_refl _) (by omega)
  have second := zeros (k + 1) (by omega) (by omega)
  have left : 8 - k = 8 - (k + 1) + 1 := by omega
  rw [ip6Fmt, fmtLoop_front words (by omega) (by omega) apart, left,
    fmtLoop_round (fun h => unmapped (by omega) h.2) (words k (by omega))
      (.inr ⟨rfl, words (k + 1) (by omega)⟩), first, second, put_begin]
  have rest := @fmtLoop_zeros x m w words (k + 1) (n - 1)
    (if 2 * k = 0 then colons x ((List.range k).map w) ++ [58] else colons x ((List.range k).map w))
    (by omega) (fun h => unmapped (by omega)) fun i lo hi => zeros i (by omega) (by omega)
  have behind : k + 1 + (n - 1) = k + n := by omega
  rw [behind] at rest
  rw [show 2 * k + 2 = 2 * (k + 1) from rfl, rest]
  congr 2
  by_cases zero : k = 0
  · rw [if_pos zero, if_pos (by omega)]
  · rw [if_neg zero, if_neg (by omega), List.append_nil]

omit words in
/-- Behind a run that was left out, the look at the next word goes past the end. -/
theorem fmtLoop_behind (words : ∀ i < 8, word m (2 * i) = some (w i)) (past : word m 16 = none)
    (plain : ¬ Mapped m) {n c : Nat} {t : Bytes} (few : n ≤ 7) (shown : 1 ≤ c ∨ n = 0) :
    fmtLoop x m (n + 1) (2 * (7 - n)) ⟨false, c, t⟩ = none := by
  induction n generalizing t with
  | zero =>
    rw [fmtLoop, if_neg fun h => plain h.2, words 7 (by decide)]
    show (match some (w 7), word m 16 with | some _, some _ => _ | _, _ => none) = none
    rw [past]
  | succ n ih =>
    have next : 2 * (7 - (n + 1)) + 2 = 2 * (7 - n) := by omega
    have ahead := words (7 - n) (by omega)
    rw [← next] at ahead
    rw [fmtLoop_round (fun h => plain h.2) (words (7 - (n + 1)) (by omega)) (.inr ⟨rfl, ahead⟩),
      put_shown (by omega), next]
    exact ih (by omega) (by omega)

end Printing

/-! ## The words of an address -/

section Words

variable {ip : Bytes} (whole : ip.length = 16)
include whole

theorem word_append {i : Nat} (hi : i < 8) (more : Bytes) :
    word (ip ++ more) (2 * i) = some (wordAt ip i) := by
  have low : 2 * i < ip.length := by omega
  have high : 2 * i + 1 < ip.length := by omega
  unfold wordAt word
  rw [List.getElem?_append_left low, List.getElem?_append_left high, List.getElem?_eq_getElem low,
    List.getElem?_eq_getElem high]
  rfl

theorem word_inside {i : Nat} (hi : i < 8) : word ip (2 * i) = some (wordAt ip i) := by
  have here := word_append whole hi []
  rwa [List.append_nil] at here

theorem word_past : word ip 16 = none := by
  unfold word
  rw [List.getElem?_eq_none (by omega)]

theorem wordAt_lt {i : Nat} (hi : i < 8) : wordAt ip i < 65536 := by
  have low : 2 * i < ip.length := by omega
  have high : 2 * i + 1 < ip.length := by omega
  have hhi := ip[2 * i].toNat_lt
  have hlo := ip[2 * i + 1].toNat_lt
  unfold wordAt word
  rw [List.getElem?_eq_getElem low, List.getElem?_eq_getElem high]
  show ip[2 * i].toNat * 256 + ip[2 * i + 1].toNat < 65536
  omega

theorem mapped_append (more : Bytes) : Mapped (ip ++ more) ↔ Mapped ip := by
  unfold Mapped
  rw [List.take_append_of_le_length (by omega)]

theorem octets_eq : (List.range 8).flatMap (fun i => be16 (wordAt ip i)) = ip := by
  match ip, whole with
  | [a, b, c, d, e, f, g, h, i, j, k, l, m, n, o, p], _ =>
    have pack (hi lo : UInt8) : be16 (hi.toNat * 256 + lo.toNat) = [hi, lo] := by
      rw [← unbe_pair, be16_unbe]
    simp only [show List.range 8 = [0, 1, 2, 3, 4, 5, 6, 7] from rfl, List.flatMap_cons,
      List.flatMap_nil]
    show be16 (a.toNat * 256 + b.toNat) ++ (be16 (c.toNat * 256 + d.toNat) ++
      (be16 (e.toNat * 256 + f.toNat) ++ (be16 (g.toNat * 256 + h.toNat) ++
      (be16 (i.toNat * 256 + j.toNat) ++ (be16 (k.toNat * 256 + l.toNat) ++
      (be16 (m.toNat * 256 + n.toNat) ++ (be16 (o.toNat * 256 + p.toNat) ++ []))))))) = _
    simp only [pack]
    rfl

end Words

/-! ## Scanning -/

section Scanning

variable {x} (exact : x.Exact)
include exact

theorem scan_fmt {u : Nat} (small : u < 65536) {rest : Bytes}
    (stop : ∀ b ∈ rest.head?, isHexDigit b = false) :
    x.scan (x.fmt u ++ rest) = ((x.fmt u).length, u) := by
  have run : (x.fmt u ++ rest).takeWhile isHexDigit = x.fmt u := by
    rw [List.takeWhile_append_of_pos (exact.digits u).2]
    cases rest with
    | nil => rw [List.takeWhile_nil, List.append_nil]
    | cons b rest => rw [List.takeWhile_cons, stop b rfl, if_neg Bool.false_ne_true, List.append_nil]
  refine Prod.ext ?_ (exact.back u small rest stop)
  rw [exact.run, run]

/-- A printed word begins with a digit. -/
theorem head_fmt (u : Nat) (rest : Bytes) : ∃ b, (x.fmt u ++ rest).head? = some b ∧ b ≠ 58 := by
  obtain ⟨nonempty, digits⟩ := exact.digits u
  cases h : x.fmt u with
  | nil => exact absurd h nonempty
  | cons b s =>
    refine ⟨b, rfl, fun heq => ?_⟩
    have digit := digits b (h ▸ List.mem_cons_self)
    rw [heq] at digit
    cases digit

/-- A printed word and the colon behind it: the scanner takes the word, and the colon in front of it if
there is one. -/
theorem scanWords_word {u : Nat} (small : u < 65536) (rest : Bytes) {rounds len : Nat}
    {front before : Bytes} (colon : front = [] ∨ front = [58]) (room : before.length ≠ 14) :
    scanWords x (rounds + 1) (front ++ (x.fmt u ++ 58 :: rest)) len before =
      scanWords x rounds (58 :: rest) (len + front.length + (x.fmt u).length) (before ++ be16 u) := by
  obtain ⟨b, hb, hcolon⟩ := head_fmt exact u (58 :: rest)
  have digit : ¬ (x.fmt u ++ 58 :: rest).head? = some 58 := fun h =>
    hcolon (Option.some.inj (hb.symm.trans h))
  have read : x.scan (x.fmt u ++ 58 :: rest) = ((x.fmt u).length, u) := by
    refine scan_fmt exact small fun b hb => ?_
    cases hb
    rfl
  have some_digit : (x.fmt u).length ≠ 0 := (List.length_pos_iff.mpr (exact.digits u).1).ne'
  have behind : ¬ (before.length = 12 ∧ (58 :: rest).head? = some 46) := fun h => by cases h.2
  have unfinished : ¬ (before ++ be16 u).length = 16 := by
    rw [List.length_append, show (be16 u).length = 2 from rfl]
    omega
  rw [scanWords]
  rcases colon with rfl | rfl
  · rw [List.nil_append, if_neg fun h => digit h.1]
    simp only [if_neg digit, List.drop_zero, read, if_neg some_digit, List.drop_left,
      if_neg behind, if_neg unfinished]
    rfl
  · rw [List.singleton_append, if_neg fun h => digit h.2]
    simp only [List.head?_cons, if_true, List.drop_one, List.tail_cons, read, if_neg some_digit,
      List.drop_left, if_neg unfinished]
    exact if_neg behind

omit exact in
theorem colons_cons (u : Nat) (ws : List Nat) (t : Bytes) :
    colons x (u :: ws) ++ t = x.fmt u ++ 58 :: (colons x ws ++ t) := by
  show (x.fmt u ++ [58] ++ colons x ws) ++ t = _
  simp only [List.append_assoc, List.cons_append, List.nil_append]

omit exact in
theorem colons_cons_length (u : Nat) (ws : List Nat) :
    (colons x (u :: ws)).length = (x.fmt u).length + 1 + (colons x ws).length := by
  show (x.fmt u ++ [58] ++ colons x ws).length = _
  simp only [List.length_append, List.length_singleton]

/-- The words in front of a double colon are read one by one. -/
theorem scanWords_colons {ws : List Nat} (small : ∀ u ∈ ws, u < 65536) (behind : Bytes)
    {rounds len : Nat} {before : Bytes} (room : before.length + 2 * ws.length < 16)
    (enough : ws.length < rounds) :
    scanWords x rounds (58 :: (colons x ws ++ 58 :: behind)) len before =
      some (scanBehind x (before ++ ws.flatMap be16) 8 behind (len + (colons x ws).length + 2)
        (before ++ ws.flatMap be16).length []) := by
  induction ws generalizing rounds len before with
  | nil =>
    obtain ⟨rounds, rfl⟩ := Nat.exists_eq_add_of_le' (show 1 ≤ rounds by omega)
    show scanWords x (rounds + 1) (58 :: 58 :: behind) len before = _
    rw [scanWords, if_pos ⟨rfl, rfl⟩, List.flatMap_nil, List.append_nil]
    rfl
  | cons u ws ih =>
    rw [List.length_cons] at room enough
    obtain ⟨rounds, rfl⟩ := Nat.exists_eq_add_of_le' (show 1 ≤ rounds by omega)
    have cut : 58 :: (colons x (u :: ws) ++ 58 :: behind) =
        [58] ++ (x.fmt u ++ 58 :: (colons x ws ++ 58 :: behind)) := by
      rw [colons_cons, List.singleton_append]
    rw [cut, scanWords_word exact (small u List.mem_cons_self) _ (.inr rfl) (by omega),
      ih (fun v hv => small v (List.mem_cons_of_mem _ hv)) (by
        rw [List.length_append, show (be16 u).length = 2 from rfl]
        omega) (by omega),
      List.flatMap_cons, List.append_assoc, colons_cons_length, List.length_singleton]
    congr 2
    omega

omit exact in
/-- Behind the first number of a text without dots up to a colon, there is no dot. -/
theorem scanDot_behind {s : Bytes} (dotless : 46 ∉ s) (rest : Bytes) :
    scanDot ((s ++ 58 :: rest).drop (digitRun (s ++ 58 :: rest)).length) = none := by
  induction s with
  | nil => rfl
  | cons b s ih =>
    rw [List.cons_append, digitRun, List.takeWhile_cons]
    split
    · exact ih fun h => dotless (List.mem_cons_of_mem _ h)
    · have other : b ≠ 46 := fun h => dotless (h ▸ List.mem_cons_self)
      rw [List.length_nil, List.drop_zero, scanDot]
      rintro _ h
      exact other (List.cons.inj h).1

/-- Hexadecimal digits and a colon are no IPv4 address. -/
theorem ip4ScanAt_fmt (u : Nat) (rest : Bytes) : ip4ScanAt (x.fmt u ++ 58 :: rest) = none := by
  have dotless : 46 ∉ x.fmt u := fun h => by
    have digit := (exact.digits u).2 46 h
    cases digit
  have dot := scanDot_behind dotless rest
  unfold ip4ScanAt scanOctet
  split
  · rfl
  · simp only [Option.bind_eq_bind, Option.bind_some, dot, Option.bind_none]

/-- **Words, a double colon and what is behind it**, from the beginning. -/
theorem ip6Scan_colons {ws : List Nat} (small : ∀ u ∈ ws, u < 65536) (few : ws.length ≤ 7)
    (behind : Bytes) :
    ip6Scan x (colons x ws ++ (if ws = [] then [58] else []) ++ 58 :: behind) =
      some (scanBehind x (ws.flatMap be16) 8 behind
        ((colons x ws).length + (if ws = [] then 2 else 1)) (2 * ws.length) []) := by
  have double (ws : List Nat) : (ws.flatMap be16).length = 2 * ws.length := by
    induction ws with
    | nil => rfl
    | cons u ws ih =>
      rw [List.flatMap_cons, List.length_append, ih, List.length_cons,
        show (be16 u).length = 2 from rfl]
      omega
  cases ws with
  | nil =>
    have read := @scanWords_colons x exact [] (fun _ h => absurd h List.not_mem_nil) behind 8 0 []
      (by decide) (by decide)
    exact read
  | cons u ws =>
    rw [List.length_cons] at few
    have later (v : Nat) (hv : v ∈ ws) : v < 65536 := small v (List.mem_cons_of_mem _ hv)
    have first := @scanWords_word x exact u (small u List.mem_cons_self)
      (colons x ws ++ 58 :: behind) 7 0 [] [] (.inl rfl) (by decide)
    rw [List.nil_append] at first
    rw [if_neg (List.cons_ne_nil _ _), if_neg (List.cons_ne_nil _ _), List.append_nil, colons_cons,
      ip6Scan, ip4ScanAt_fmt exact]
    show scanWords x 8 (x.fmt u ++ 58 :: (colons x ws ++ 58 :: behind)) 0 [] = _
    rw [first, List.nil_append, scanWords_colons exact later behind (by
      rw [show (be16 u).length = 2 from rfl]
      omega) (by omega), ← List.flatMap_cons, double, colons_cons_length]
    congr 2
    rw [List.length_nil]
    omega

omit exact in
theorem head_not_colon {rest : Bytes} (ends : EndsAddress rest) : rest.head? ≠ some 58 :=
  fun h => (ends 58 h).2.1 rfl

/-- The first word behind the double colon. -/
theorem scanBehind_first {u : Nat} (small : u < 65536) {t : Bytes}
    (stop : ∀ b ∈ t.head?, isHexDigit b = false ∧ b ≠ 46) {before : Bytes}
    {rounds len prefixlen : Nat} (unfinished : prefixlen ≠ 14) :
    scanBehind x before (rounds + 1) (x.fmt u ++ t) len prefixlen [] =
      scanBehind x before rounds t (len + (x.fmt u).length) prefixlen (be16 u) := by
  have digit : ¬ (x.fmt u ++ t).head? = some 58 := by
    obtain ⟨b, hb, hcolon⟩ := head_fmt exact u t
    exact fun h => hcolon (Option.some.inj (hb.symm.trans h))
  have read : x.scan (x.fmt u ++ t) = ((x.fmt u).length, u) :=
    scan_fmt exact small fun b hb => (stop b hb).1
  have some_digit : (x.fmt u).length ≠ 0 := (List.length_pos_iff.mpr (exact.digits u).1).ne'
  have no_dot : ¬ (([] : Bytes).length + prefixlen ≤ 12 ∧ t.head? = some 46) := fun h =>
    (stop 46 h.2).2 rfl
  have filled : ¬ prefixlen + ([] ++ be16 u).length = 16 := by
    rw [List.nil_append, show (be16 u).length = 2 from rfl]
    omega
  rw [scanBehind, if_neg fun h => h.elim (fun h => digit h.1) fun h => h.2 rfl]
  simp only [if_neg digit, List.drop_zero, Nat.add_zero, read, if_neg some_digit, List.drop_left,
    if_neg no_dot, if_neg filled]
  rfl

/-- **The last word behind the zeroes.** -/
theorem scanBehind_word {u : Nat} (small : u < 65536) {rest : Bytes} (ends : EndsAddress rest)
    {before : Bytes} {len prefixlen : Nat} (unfinished : prefixlen ≠ 14) :
    scanBehind x before 8 (x.fmt u ++ rest) len prefixlen [] =
      (len + (x.fmt u).length, spread before (be16 u)) := by
  have stop : rest.head? = some 58 ∧ be16 u = [] ∨ rest.head? ≠ some 58 ∧ be16 u ≠ [] :=
    .inr ⟨head_not_colon ends, List.cons_ne_nil _ _⟩
  rw [scanBehind_first exact small (fun b hb => ⟨(ends b hb).1, (ends b hb).2.2⟩) unfinished,
    scanBehind, if_pos stop]

/-- Where nothing follows the double colon, the count is one too small. -/
theorem scanBehind_nothing {rest : Bytes} (ends : EndsAddress rest) {before : Bytes}
    {len prefixlen : Nat} :
    scanBehind x before 8 rest len prefixlen [] = (len - 1, spread before []) := by
  have colon := head_not_colon ends
  have none_read : (x.scan rest).1 = 0 := by
    rw [exact.run]
    cases rest with
    | nil => rfl
    | cons b rest => rw [List.takeWhile_cons, (ends b rfl).1, if_neg Bool.false_ne_true]; rfl
  rw [scanBehind, if_neg fun h => h.elim (fun h => colon h.1) fun h => h.2 rfl]
  simp only [if_neg colon, List.drop_zero, Nat.add_zero]
  exact if_pos none_read

omit exact in
theorem isHexDigit_isDigit : ∀ b : UInt8, isDigit b = true → isHexDigit b = true := by
  decide +kernel

omit exact in
theorem ip4ScanAt_dotted (a b c d : UInt8) {rest : Bytes}
    (stop : ∀ b ∈ rest.head?, isDigit b = false) :
    ip4ScanAt (ip4Fmt a b c d ++ rest) = some ([a, b, c, d], (ip4Fmt a b c d).length) := by
  have dot (s : Bytes) : ∀ x ∈ (46 :: s : Bytes).head?, isDigit x = false := by
    intro x hx
    cases hx
    rfl
  have assoc : ip4Fmt a b c d ++ rest = decimal a.toNat ++ 46 :: (decimal b.toNat ++
      46 :: (decimal c.toNat ++ 46 :: (decimal d.toNat ++ rest))) := by
    simp only [ip4Fmt, List.append_assoc, List.cons_append]
  have length : (ip4Fmt a b c d ++ rest).length - rest.length = (ip4Fmt a b c d).length := by
    rw [List.length_append, Nat.add_sub_cancel]
  rw [← length, assoc]
  simp only [ip4ScanAt, scanOctet_decimal _ (dot _), scanDot, scanOctet_decimal _ stop,
    Option.bind_eq_bind, Option.bind_some]

/-- **The words `ffff` and an IPv4 address behind ten zero octets.** -/
theorem scanBehind_mapped (a b c d : UInt8) {rest : Bytes} (ends : EndsAddress rest) {len : Nat} :
    scanBehind x [] 8 (x.fmt 65535 ++ 58 :: (ip4Fmt a b c d ++ rest)) len 0 [] =
      (len + (x.fmt 65535).length + 1 + (ip4Fmt a b c d).length,
        Dnscache.v4mappedprefix ++ [a, b, c, d]) := by
  have stop : ∀ b ∈ (58 :: (ip4Fmt a b c d ++ rest)).head?, isHexDigit b = false ∧ b ≠ 46 := by
    intro b hb
    cases hb
    decide
  have go_on : ¬ ((58 :: (ip4Fmt a b c d ++ rest)).head? = some 58 ∧ be16 65535 = [] ∨
      (58 :: (ip4Fmt a b c d ++ rest)).head? ≠ some 58 ∧ be16 65535 ≠ []) :=
    fun h => h.elim (fun h => absurd h.2 (List.cons_ne_nil _ _)) fun h => h.1 rfl
  -- the first number of the IPv4 address, as far as `scan_xlong` is concerned
  have number : ip4Fmt a b c d ++ rest = decimal a.toNat ++
      46 :: (decimal b.toNat ++ 46 :: (decimal c.toNat ++ 46 :: decimal d.toNat) ++ rest) := by
    simp only [ip4Fmt, List.append_assoc, List.cons_append]
  have hexadecimal : (x.scan (ip4Fmt a b c d ++ rest)).1 = (decimal a.toNat).length := by
    rw [exact.run, number, List.takeWhile_append_of_pos
      fun b hb => isHexDigit_isDigit b (decimal_digits _ b hb), List.takeWhile_cons,
      if_neg (by decide), List.append_nil]
  have some_number : (x.scan (ip4Fmt a b c d ++ rest)).1 ≠ 0 := by
    rw [hexadecimal]
    exact (List.length_pos_iff.mpr (decimal_ne_nil _)).ne'
  have dot : (be16 65535).length + 0 ≤ 12 ∧ ((ip4Fmt a b c d ++ rest).drop
      (x.scan (ip4Fmt a b c d ++ rest)).1).head? = some 46 := by
    refine ⟨by decide, ?_⟩
    rw [hexadecimal, number, List.drop_left]
    rfl
  have dotted : ip4ScanAt (ip4Fmt a b c d ++ rest) = some ([a, b, c, d], (ip4Fmt a b c d).length) := by
    refine ip4ScanAt_dotted a b c d fun b hb => ?_
    cases hdigit : isDigit b with
    | false => rfl
    | true =>
      have := (ends b hb).1
      rw [isHexDigit_isDigit b hdigit] at this
      cases this
  rw [scanBehind_first exact (by decide) stop (by decide), scanBehind, if_neg go_on]
  simp only [List.head?_cons, if_true, List.drop_one, List.tail_cons]
  rw [if_neg some_number, if_pos dot, dotted]
  rfl

end Scanning

/-! ## Where the scanner stops -/

/-- `scan_xlong` reads hexadecimal digits only, and looks at no others. -/
structure Xlong.Reads (x : Xlong) : Prop where
  within : ∀ s, (x.scan s).1 ≤ (s.takeWhile isHexDigit).length
  same : ∀ s t, s.takeWhile isHexDigit = t.takeWhile isHexDigit → x.scan s = x.scan t

section Stopping

variable {rest : Bytes}

theorem takeWhile_ends {p : UInt8 → Bool} (stop : ∀ b ∈ rest.head?, p b = false) (s : Bytes) :
    (s ++ rest).takeWhile p = s.takeWhile p := by
  induction s with
  | nil =>
    cases rest with
    | nil => rfl
    | cons b rest => rw [List.nil_append, List.takeWhile_cons, stop b rfl]; rfl
  | cons b s ih => rw [List.cons_append, List.takeWhile_cons, List.takeWhile_cons, ih]

theorem head_ends {c : UInt8} (other : ∀ b ∈ rest.head?, b ≠ c) (s : Bytes) :
    (s ++ rest).head? = some c ↔ s.head? = some c := by
  cases s with
  | nil =>
    refine iff_of_false (fun h => ?_) fun h => by cases h
    exact other c h rfl
  | cons b s => rfl

theorem scanOctet_ends (stop : ∀ b ∈ rest.head?, isDigit b = false) (s : Bytes) :
    scanOctet (s ++ rest) = (scanOctet s).map fun (b, t) => (b, t ++ rest) := by
  have run : digitRun (s ++ rest) = digitRun s := takeWhile_ends stop s
  have within : (digitRun s).length ≤ s.length := (List.takeWhile_prefix _).length_le
  unfold scanOctet scanUlong
  rw [run, List.drop_append_of_le_length within]
  split <;> rfl

theorem scanDot_ends (other : ∀ b ∈ rest.head?, b ≠ 46) (s : Bytes) :
    scanDot (s ++ rest) = (scanDot s).map (· ++ rest) := by
  have dot := head_ends other s
  unfold scanDot
  cases s with
  | nil =>
    cases rest with
    | nil => rfl
    | cons b rest =>
      have := other b rfl
      split
      · rename_i h
        exact absurd (List.cons.inj h).1 this
      · rfl
  | cons b s =>
    by_cases h : b = 46
    · rw [h]; rfl
    · split
      · rename_i heq
        exact absurd (List.cons.inj heq).1 h
      · split
        · rename_i heq
          exact absurd (List.cons.inj heq).1 h
        · rfl

variable (ends : EndsAddress rest)
include ends

theorem not_digit : ∀ b ∈ rest.head?, isDigit b = false := by
  intro b hb
  cases digit : isDigit b with
  | false => rfl
  | true =>
    have hexadecimal := isHexDigit_isDigit b digit
    rw [(ends b hb).1] at hexadecimal
    cases hexadecimal

theorem ip4ScanAt_ends (s : Bytes) : ip4ScanAt (s ++ rest) = ip4ScanAt s := by
  have octet := scanOctet_ends (not_digit ends)
  have dot := scanDot_ends fun b hb => (ends b hb).2.2
  have length (t : Bytes) : (s ++ rest).length - (t ++ rest).length = s.length - t.length := by
    rw [List.length_append, List.length_append, Nat.add_sub_add_right]
  unfold ip4ScanAt
  simp only [octet, dot, Option.bind_eq_bind, Option.bind_map, Function.comp_def, length]

variable {x : Xlong} (reads : x.Reads)
include reads

theorem scan_ends (s : Bytes) : x.scan (s ++ rest) = x.scan s :=
  reads.same _ _ (takeWhile_ends (fun b hb => (ends b hb).1) s)

omit ends in
theorem scan_within (s : Bytes) : (x.scan s).1 ≤ s.length :=
  Nat.le_trans (reads.within s) (List.takeWhile_prefix _).length_le

omit reads in
/-- A colon that is skipped is one of the text's own. -/
theorem skip_ends (s : Bytes) : (s ++ rest).drop (if (s ++ rest).head? = some 58 then 1 else 0) =
    s.drop (if s.head? = some 58 then 1 else 0) ++ rest := by
  have colon := head_ends (fun b hb => (ends b hb).2.1) s
  cases s with
  | nil =>
    rw [if_neg (mt colon.mp (by simp)), if_neg (by simp)]
    rfl
  | cons b s =>
    simp only [colon]
    split <;> rfl

theorem scanBehind_ends {before : Bytes} {rounds len prefixlen : Nat} {suffix : Bytes} (s : Bytes) :
    scanBehind x before rounds (s ++ rest) len prefixlen suffix =
      scanBehind x before rounds s len prefixlen suffix := by
  induction rounds generalizing s len prefixlen suffix with
  | zero => rfl
  | succ rounds ih =>
    have colon := head_ends (fun b hb => (ends b hb).2.1) s
    have dot := head_ends (fun b hb => (ends b hb).2.2)
    have skip := skip_ends ends s
    rw [scanBehind, scanBehind]
    simp only [colon, ne_eq] at skip ⊢
    simp only [skip, scan_ends ends reads, List.drop_append_of_le_length (scan_within reads _), dot,
      ip4ScanAt_ends ends, ih]

theorem scanWords_ends {rounds len : Nat} {before : Bytes} (s : Bytes) :
    scanWords x rounds (s ++ rest) len before = scanWords x rounds s len before := by
  induction rounds generalizing s len before with
  | zero => rfl
  | succ rounds ih =>
    have colon := head_ends (fun b hb => (ends b hb).2.1)
    have dot := head_ends (fun b hb => (ends b hb).2.2)
    have skip := skip_ends ends s
    rw [scanWords, scanWords]
    simp only [colon] at skip ⊢
    have second : s.head? = some 58 ∧ ((s ++ rest).drop 1).head? = some 58 ↔
        s.head? = some 58 ∧ (s.drop 1).head? = some 58 := by
      refine and_congr_right fun first => ?_
      cases s with
      | nil => cases first
      | cons b s => exact colon s
    simp only [second]
    by_cases double : s.head? = some 58 ∧ (s.drop 1).head? = some 58
    · have two : (s ++ rest).drop 2 = s.drop 2 ++ rest := by
        match s, double with
        | b :: c :: s, _ => rfl
      rw [if_pos double, if_pos double, two, scanBehind_ends ends reads]
    · rw [if_neg double, if_neg double]
      simp only [skip, scan_ends ends reads, List.drop_append_of_le_length (scan_within reads _), dot,
        ip4ScanAt_ends ends, ih]

/-- **The scanner stops in front of what cannot continue an address.** -/
theorem ip6Scan_ends (s : Bytes) : ip6Scan x (s ++ rest) = ip6Scan x s := by
  rw [ip6Scan, ip6Scan, ip4ScanAt_ends ends, scanWords_ends ends reads]

end Stopping

/-! ## What is read is not nothing -/

section Progress

theorem scanOctet_shorter {s t : Bytes} {b : UInt8} (h : scanOctet s = some (b, t)) :
    t.length < s.length := by
  unfold scanOctet at h
  by_cases none_read : digitRun s = []
  · rw [if_pos none_read] at h
    cases h
  · rw [if_neg none_read] at h
    cases h
    have some_read := List.length_pos_iff.mpr none_read
    have within : (digitRun s).length ≤ s.length := (List.takeWhile_prefix _).length_le
    rw [List.length_drop]
    omega

theorem scanDot_shorter {s t : Bytes} (h : scanDot s = some t) : t.length < s.length := by
  unfold scanDot at h
  split at h
  · cases h
    exact Nat.lt_succ_self _
  · cases h

theorem ip4ScanAt_pos {s ip : Bytes} {i : Nat} (h : ip4ScanAt s = some (ip, i)) : 1 ≤ i := by
  unfold ip4ScanAt at h
  simp only [Option.bind_eq_bind, Option.bind_eq_some_iff, Prod.exists] at h
  obtain ⟨_, t0, h0, t1, d1, _, t2, h2, t3, d3, _, t4, h4, t5, d5, _, t6, h6, h⟩ := h
  cases h
  have l0 := scanOctet_shorter h0
  have l1 := scanDot_shorter d1
  have l2 := scanOctet_shorter h2
  have l3 := scanDot_shorter d3
  have l4 := scanOctet_shorter h4
  have l5 := scanDot_shorter d5
  have l6 := scanOctet_shorter h6
  omega

variable {x : Xlong}

theorem ip4ScanAt_whole {s ip : Bytes} {i : Nat} (h : ip4ScanAt s = some (ip, i)) :
    ip.length = 4 := by
  unfold ip4ScanAt at h
  simp only [Option.bind_eq_bind, Option.bind_eq_some_iff, Prod.exists] at h
  obtain ⟨_, _, _, _, _, _, _, _, _, _, _, _, _, _, _, _, _, _, h⟩ := h
  cases h
  rfl

theorem spread_whole {before suffix : Bytes} (short : suffix.length ≤ 16)
    (within : before.length ≤ 16) : (spread before suffix).length = 16 := by
  rw [spread, List.length_append, List.length_take, List.length_append, List.length_replicate]
  omega

/-- What was read is something, and an address. -/
def Whole (read : Nat × Bytes) : Prop := 1 ≤ read.1 ∧ read.2.length = 16

theorem scanBehind_whole {before s suffix : Bytes} {rounds len prefixlen : Nat} (two : 2 ≤ len)
    (within : before.length ≤ 16) (room : suffix.length + 2 * rounds ≤ 16) :
    Whole (scanBehind x before rounds s len prefixlen suffix) := by
  have stop {n : Nat} {suffix : Bytes} (some_read : 1 ≤ n) (short : suffix.length ≤ 16) :
      Whole (n, spread before suffix) := ⟨some_read, spread_whole short within⟩
  induction rounds generalizing s len prefixlen suffix with
  | zero => exact stop (Nat.le_of_succ_le two) (by omega)
  | succ rounds ih =>
    rw [scanBehind]
    by_cases done : s.head? = some 58 ∧ suffix = [] ∨ s.head? ≠ some 58 ∧ suffix ≠ []
    · rw [if_pos done]
      exact stop (Nat.le_of_succ_le two) (by omega)
    · rw [if_neg done]
      dsimp only
      generalize (if s.head? = some 58 then 1 else 0) = skip
      generalize s.drop skip = u
      by_cases none_read : (x.scan u).1 = 0
      · rw [if_pos none_read]
        exact stop (by omega) (by omega)
      · rw [if_neg none_read]
        have word : (suffix ++ be16 (x.scan u).2).length = suffix.length + 2 := by
          rw [List.length_append]
          rfl
        by_cases dotted : suffix.length + prefixlen ≤ 12 ∧ (u.drop (x.scan u).1).head? = some 46
        · rw [if_pos dotted]
          cases found : ip4ScanAt u with
          | some read =>
            have four := ip4ScanAt_whole found
            exact stop (by omega) (by rw [List.length_append]; omega)
          | none =>
            dsimp only
            rw [if_pos dotted, if_neg (by rw [word]; omega)]
            exact ih (by omega) (by rw [word]; omega)
        · rw [if_neg dotted]
          dsimp only
          rw [if_neg dotted]
          by_cases full : prefixlen + (suffix ++ be16 (x.scan u).2).length = 16
          · rw [if_pos full]
            exact stop (by omega) (by rw [word]; omega)
          · rw [if_neg full]
            exact ih (by omega) (by rw [word]; omega)

theorem scanWords_whole {before s : Bytes} {rounds len : Nat} {read : Nat × Bytes}
    (room : before.length + 2 * rounds = 16) (h : scanWords x rounds s len before = some read) :
    Whole read := by
  induction rounds generalizing s len before with
  | zero => cases h
  | succ rounds ih =>
    rw [scanWords] at h
    by_cases double : s.head? = some 58 ∧ (s.drop 1).head? = some 58
    · rw [if_pos double] at h
      cases h
      exact scanBehind_whole (by omega) (by omega) (by decide)
    · rw [if_neg double] at h
      dsimp only at h
      generalize s.drop (if s.head? = some 58 then 1 else 0) = u at h
      by_cases none_read : (x.scan u).1 = 0
      · rw [if_pos none_read] at h
        cases h
      · rw [if_neg none_read] at h
        have word : (before ++ be16 (x.scan u).2).length = before.length + 2 := by
          rw [List.length_append]
          rfl
        by_cases dotted : before.length = 12 ∧ (u.drop (x.scan u).1).head? = some 46
        · rw [if_pos dotted] at h
          obtain ⟨⟨ip4, j⟩, found, same⟩ := Option.map_eq_some_iff.mp h
          cases same
          refine ⟨Nat.le_trans (ip4ScanAt_pos found) (Nat.le_add_right j _), ?_⟩
          show (before ++ ip4).length = 16
          rw [List.length_append, ip4ScanAt_whole found, dotted.1]
        · rw [if_neg dotted] at h
          by_cases full : (before ++ be16 (x.scan u).2).length = 16
          · rw [if_pos full] at h
            cases h
            exact ⟨Nat.le_trans (Nat.pos_of_ne_zero none_read) (Nat.le_add_left _ _), full⟩
          · rw [if_neg full] at h
            exact ih (by rw [word]; omega) h

theorem ip6Scan_whole {s : Bytes} {read : Nat × Bytes} (h : ip6Scan x s = some read) :
    Whole read := by
  unfold ip6Scan at h
  cases h4 : ip4ScanAt s with
  | some found =>
    rw [h4] at h
    cases h
    refine ⟨ip4ScanAt_pos h4, ?_⟩
    show (_ ++ found.1).length = 16
    rw [List.length_append, ip4ScanAt_whole h4]
    split <;> rfl
  | none =>
    rw [h4] at h
    exact scanWords_whole (by decide) h

theorem ip6Scan_nil (reads : x.Reads) : ip6Scan x [] = none := by
  have none_read : (x.scan []).1 = 0 := Nat.le_zero.mp (reads.within [])
  show scanWords x 8 [] 0 [] = none
  rw [scanWords, if_neg (by simp)]
  exact if_pos none_read

end Progress

/-! ## How far is read -/

section Within

theorem ip4ScanAt_within {s ip : Bytes} {i : Nat} (h : ip4ScanAt s = some (ip, i)) : i ≤ s.length := by
  unfold ip4ScanAt at h
  simp only [Option.bind_eq_bind, Option.bind_eq_some_iff, Prod.exists] at h
  obtain ⟨_, _, _, _, _, _, _, _, _, _, _, _, _, _, _, _, _, _, h⟩ := h
  cases h
  exact Nat.sub_le _ _

/-- A colon that is skipped is counted. -/
theorem skip_length (s : Bytes) :
    (if s.head? = some 58 then 1 else 0) + (s.drop (if s.head? = some 58 then 1 else 0)).length =
      s.length := by
  cases s with
  | nil => rfl
  | cons b s =>
    rw [List.length_drop, List.length_cons]
    split <;> omega

variable {x : Xlong} (reads : x.Reads)
include reads

theorem scanBehind_within {before s suffix : Bytes} {rounds len prefixlen : Nat} :
    (scanBehind x before rounds s len prefixlen suffix).1 ≤ len + s.length := by
  induction rounds generalizing s len prefixlen suffix with
  | zero => exact Nat.le_add_right _ _
  | succ rounds ih =>
    rw [scanBehind]
    by_cases done : s.head? = some 58 ∧ suffix = [] ∨ s.head? ≠ some 58 ∧ suffix ≠ []
    · rw [if_pos done]
      exact Nat.le_add_right _ _
    · rw [if_neg done]
      dsimp only
      have skipped := skip_length s
      generalize (if s.head? = some 58 then 1 else 0) = skip at skipped ⊢
      generalize s.drop skip = u at skipped ⊢
      have word := scan_within reads u
      have next {prefixlen : Nat} {suffix : Bytes} :
          (if prefixlen + suffix.length = 16 then (len + skip + (x.scan u).1, spread before suffix)
            else scanBehind x before rounds (u.drop (x.scan u).1) (len + skip + (x.scan u).1)
              prefixlen suffix).1 ≤ len + s.length := by
        split
        · show len + skip + (x.scan u).1 ≤ len + s.length
          omega
        · refine Nat.le_trans ih ?_
          rw [List.length_drop]
          omega
      by_cases none_read : (x.scan u).1 = 0
      · rw [if_pos none_read]
        show len + skip - 1 ≤ len + s.length
        omega
      · rw [if_neg none_read]
        split
        · rename_i ip4 j found
          have four : j ≤ u.length := by
            split at found
            · exact ip4ScanAt_within found
            · cases found
          show len + skip + j ≤ len + s.length
          omega
        · exact next

theorem scanWords_within {before s : Bytes} {rounds len : Nat} {read : Nat × Bytes}
    (h : scanWords x rounds s len before = some read) : read.1 ≤ len + s.length := by
  induction rounds generalizing s len before with
  | zero => cases h
  | succ rounds ih =>
    rw [scanWords] at h
    by_cases double : s.head? = some 58 ∧ (s.drop 1).head? = some 58
    · rw [if_pos double] at h
      cases h
      refine Nat.le_trans (scanBehind_within reads) ?_
      match s, double with
      | b :: c :: s, _ =>
        rw [List.drop_succ_cons, List.drop_succ_cons, List.drop_zero, List.length_cons,
          List.length_cons]
        omega
    · rw [if_neg double] at h
      dsimp only at h
      have skipped := skip_length s
      generalize (if s.head? = some 58 then 1 else 0) = skip at skipped h
      generalize s.drop skip = u at skipped h
      have word := scan_within reads u
      by_cases none_read : (x.scan u).1 = 0
      · rw [if_pos none_read] at h
        cases h
      · rw [if_neg none_read] at h
        split at h
        · obtain ⟨⟨ip4, j⟩, found, same⟩ := Option.map_eq_some_iff.mp h
          cases same
          have four := ip4ScanAt_within found
          show j + (len + skip) ≤ len + s.length
          omega
        · split at h
          · cases h
            show len + skip + (x.scan u).1 ≤ len + s.length
            omega
          · have rest : read.1 ≤ len + skip + (x.scan u).1 + (u.drop (x.scan u).1).length := ih h
            rw [List.length_drop] at rest
            omega

/-- No more is counted than there is. -/
theorem ip6Scan_within {s : Bytes} {read : Nat × Bytes} (h : ip6Scan x s = some read) :
    read.1 ≤ s.length := by
  unfold ip6Scan at h
  cases h4 : ip4ScanAt s with
  | some found =>
    rw [h4] at h
    cases h
    exact ip4ScanAt_within h4
  | none =>
    rw [h4] at h
    have within := scanWords_within reads h
    rwa [Nat.zero_add] at within

end Within

/-! ## What an address leaves

The text of an address, with no count: words with a colon between them, a double colon for words that
are zero, and an IPv4 address in the place of the last two words. It ends where no further word
follows. -/

section Leaving

variable (x : Xlong)

/-- Where the next word would stand: behind the double colon the first of them, any other behind a
colon of its own. -/
def nextWord (s : Bytes) (n : Nat) : Option Bytes :=
  if n = 0 then some s else if s.head? = some 58 then some (s.drop 1) else none

/-- What is left behind the words that follow a double colon; `front` words are in front of it, and `n`
have been read behind it. -/
def leftBehind (front : Nat) : Nat → Bytes → Nat → Bytes
  | 0, s, _ => s
  | rounds + 1, s, n =>
    match nextWord s n with
    | none => s
    | some w =>
      if (x.scan w).1 = 0 then s
      else if n + front ≤ 6 ∧ (w.drop (x.scan w).1).head? = some 46 then
        match ip4ScanAt w with
        | some (_, j) => w.drop j
        | none => w.drop (x.scan w).1
      else if n + 1 + front = 8 then w.drop (x.scan w).1
      else leftBehind front rounds (w.drop (x.scan w).1) (n + 1)

/-- What is left behind an address of which `n` words have been read, and whether it ends with the
double colon: no word stands behind that, and no third colon. -/
def leftWords : Nat → Bytes → Nat → Bytes × Bool
  | 0, s, _ => (s, false)
  | rounds + 1, s, n =>
    if s.head? = some 58 ∧ (s.drop 1).head? = some 58 then
      (leftBehind x n 8 (s.drop 2) 0, (x.scan (s.drop 2)).1 = 0 ∧ (s.drop 2).head? ≠ some 58)
    else
      let w := s.drop (if s.head? = some 58 then 1 else 0)
      let i := (x.scan w).1
      if n = 6 ∧ (w.drop i).head? = some 46 then
        match ip4ScanAt w with
        | some (_, j) => (w.drop j, false)
        | none => (w.drop i, false)
      else if n + 1 = 8 then (w.drop i, false)
      else leftWords rounds (w.drop i) (n + 1)

/-- What a text leaves behind the address it begins with, and whether that ends with a double colon. -/
def addressLeft (s : Bytes) : Bytes × Bool :=
  match ip4ScanAt s with
  | some (_, i) => (s.drop i, false)
  | none => leftWords x 8 s 0

variable {x} (reads : x.Reads)
include reads

theorem head_of_scan {s : Bytes} (word : (x.scan s).1 ≠ 0) : s.head? ≠ some 58 := by
  intro colon
  cases s with
  | nil => cases colon
  | cons b s =>
    cases colon
    exact word (Nat.le_zero.mp (reads.within (58 :: s)))

omit reads in
theorem scanBehind_stop {before s suffix : Bytes} {rounds len prefixlen : Nat}
    (head : s.head? ≠ some 58) (read : suffix ≠ []) :
    scanBehind x before rounds s len prefixlen suffix = (len, spread before suffix) := by
  cases rounds with
  | zero => rfl
  | succ rounds => rw [scanBehind, if_pos (.inr ⟨head, read⟩)]

/-- Where the scanner finds the next word, and how it goes on behind it. -/
theorem scanBehind_next {before s suffix w : Bytes} {rounds len front n : Nat}
    (words : suffix.length = 2 * n) (next : nextWord s n = some w) (word : (x.scan w).1 ≠ 0) :
    w = s.drop (if n = 0 then 0 else 1) ∧
      (scanBehind x before (rounds + 1) s len (2 * front) suffix).1 =
        if n + front ≤ 6 ∧ (w.drop (x.scan w).1).head? = some 46 then
          match ip4ScanAt w with
          | some (_, j) => len + (if n = 0 then 0 else 1) + j
          | none => len + (if n = 0 then 0 else 1) + (x.scan w).1
        else if n + 1 + front = 8 then len + (if n = 0 then 0 else 1) + (x.scan w).1
        else (scanBehind x before rounds (w.drop (x.scan w).1)
          (len + (if n = 0 then 0 else 1) + (x.scan w).1) (2 * front) (suffix ++ be16 (x.scan w).2)).1 := by
  have none_read : suffix = [] ↔ n = 0 := by
    rw [← List.length_eq_zero_iff, words]
    omega
  have head := head_of_scan reads word
  obtain ⟨place, colon⟩ : w = s.drop (if n = 0 then 0 else 1) ∧ (s.head? = some 58 ↔ n ≠ 0) := by
    unfold nextWord at next
    by_cases first : n = 0
    · rw [if_pos first] at next
      cases next
      rw [if_pos first]
      exact ⟨rfl, iff_of_false head fun h => h first⟩
    · rw [if_neg first] at next
      split at next
      · cases next
        rw [if_neg first]
        exact ⟨rfl, iff_of_true (by assumption) first⟩
      · cases next
  have skip : (if s.head? = some 58 then 1 else 0) = if n = 0 then 0 else 1 := by
    by_cases first : n = 0
    · rw [if_neg fun h => colon.mp h first, if_pos first]
    · rw [if_pos (colon.mpr first), if_neg first]
  refine ⟨place, ?_⟩
  have going : ¬ (s.head? = some 58 ∧ suffix = [] ∨ s.head? ≠ some 58 ∧ suffix ≠ []) := by
    rw [ne_eq, ne_eq, none_read, colon]
    omega
  rw [scanBehind, if_neg going, skip]
  dsimp only
  rw [← place, if_neg word]
  generalize len + (if n = 0 then 0 else 1) = len
  have dotted : suffix.length + 2 * front ≤ 12 ↔ n + front ≤ 6 := by omega
  have longer (u : Nat) : (suffix ++ be16 u).length = 2 * n + 2 := by
    rw [List.length_append, words]
    rfl
  simp only [dotted, longer]
  by_cases dot : n + front ≤ 6 ∧ (w.drop (x.scan w).1).head? = some 46
  · simp only [if_pos dot]
    cases ip4ScanAt w with
    | some read => rfl
    | none =>
      dsimp only
      rw [if_neg (by omega), scanBehind_stop]
      · rw [dot.2]
        decide
      · exact List.append_ne_nil_of_right_ne_nil _ (List.cons_ne_nil _ _)
  · simp only [if_neg dot]
    by_cases full : n + 1 + front = 8
    · rw [if_pos full, if_pos (by omega)]
    · rw [if_neg full, if_neg (by omega)]

/-- Behind a word, the count is the place. -/
theorem scanBehind_left {text before s suffix : Bytes} {rounds len front n : Nat}
    (words : suffix.length = 2 * n) (read : n ≠ 0) (place : text.drop len = s) :
    text.drop (scanBehind x before rounds s len (2 * front) suffix).1 =
      leftBehind x front rounds s n := by
  induction rounds generalizing s suffix len n with
  | zero => exact place
  | succ rounds ih =>
    have filled : suffix ≠ [] := by
      rw [← List.length_pos_iff, words]
      omega
    cases next : nextWord s n with
    | none =>
      have head : s.head? ≠ some 58 := by
        intro colon
        rw [nextWord, if_neg read, if_pos colon] at next
        cases next
      rw [scanBehind_stop head filled, leftBehind, next]
      exact place
    | some w =>
      by_cases word : (x.scan w).1 = 0
      · -- the colon in front of it is taken off the count again
        have colon : s.head? = some 58 ∧ w = s.drop 1 := by
          rw [nextWord, if_neg read] at next
          split at next
          · cases next
            exact ⟨by assumption, rfl⟩
          · cases next
        rw [leftBehind, next, scanBehind, if_neg fun h => h.elim (fun h => filled h.2) fun h => h.1 colon.1]
        simp only [if_pos colon.1, ← colon.2, if_pos word]
        exact place
      · obtain ⟨where_, count⟩ :=
          @scanBehind_next x reads before s suffix w rounds len front n words next word
        have here (i : Nat) : text.drop (len + 1 + i) = w.drop i := by
          rw [where_, if_neg read, ← place, List.drop_drop, List.drop_drop, Nat.add_assoc]
        rw [count, leftBehind, next, if_neg read]
        simp only [if_neg word]
        split
        · split <;> exact here _
        · split
          · exact here _
          · refine ih ?_ (Nat.succ_ne_zero n) (here _)
            rw [List.length_append, words]
            rfl

/-- Behind the double colon, the count is the place unless it is the end: then it is one too small. -/
theorem scanBehind_double {text before s : Bytes} {len front : Nat} (place : text.drop len = s) :
    (scanBehind x before 8 s len (2 * front) []).1 = len - 1 ∧ leftBehind x front 8 s 0 = s ∧
        (x.scan s).1 = 0 ∧ s.head? ≠ some 58 ∨
      text.drop (scanBehind x before 8 s len (2 * front) []).1 = leftBehind x front 8 s 0 ∧
        ¬ ((x.scan s).1 = 0 ∧ s.head? ≠ some 58) := by
  have next : nextWord s 0 = some s := rfl
  by_cases word : (x.scan s).1 = 0
  · have left : leftBehind x front 8 s 0 = s := by rw [leftBehind, next]; exact if_pos word
    by_cases colon : s.head? = some 58
    · refine .inr ⟨?_, fun h => h.2 colon⟩
      rw [left, scanBehind, if_pos (.inl ⟨colon, rfl⟩)]
      exact place
    · refine .inl ⟨?_, left, word, colon⟩
      rw [scanBehind, if_neg fun h => h.elim (fun h => colon h.1) fun h => h.2 rfl]
      simp only [if_neg colon, List.drop_zero, if_pos word]
      rfl
  · refine .inr ⟨?_, fun h => word h.1⟩
    obtain ⟨-, count⟩ := @scanBehind_next x reads before s [] s 7 len front 0 rfl next word
    have here (i : Nat) : text.drop (len + 0 + i) = s.drop i := by
      rw [← place, List.drop_drop, Nat.add_zero]
    rw [count, leftBehind, next, if_pos rfl]
    simp only [if_neg word]
    split
    · split <;> exact here _
    · split
      · exact here _
      · exact scanBehind_left reads rfl one_ne_zero (here _)

/-- **Where an address ends**, unless it ends with a double colon, is where the count says; then the
second colon is left over. -/
theorem scanWords_left {text before s : Bytes} {rounds len n : Nat} {read : Nat × Bytes}
    (words : before.length = 2 * n) (place : text.drop len = s)
    (h : scanWords x rounds s len before = some read) :
    if (leftWords x rounds s n).2 then
      text.drop read.1 = 58 :: (leftWords x rounds s n).1 ∧
        (x.scan (leftWords x rounds s n).1).1 = 0 ∧ (leftWords x rounds s n).1.head? ≠ some 58
    else text.drop read.1 = (leftWords x rounds s n).1 := by
  induction rounds generalizing s len before n with
  | zero => cases h
  | succ rounds ih =>
    rw [scanWords] at h
    rw [leftWords]
    by_cases double : s.head? = some 58 ∧ (s.drop 1).head? = some 58
    · rw [if_pos double] at h ⊢
      cases h
      have two : text.drop (len + 2) = s.drop 2 := by rw [← place, List.drop_drop]
      have first : text.drop (len + 1) = 58 :: s.drop 2 := by
        match s, double with
        | b :: c :: s, ⟨hb, hc⟩ =>
          cases hb
          cases hc
          rw [← List.drop_drop, place]
          rfl
      rw [words]
      rcases @scanBehind_double x reads text before (s.drop 2) (len + 2) n two with
        ⟨count, left, word, colon⟩ | ⟨at_, more⟩
      · rw [if_pos (decide_eq_true ⟨word, colon⟩), left, count]
        exact ⟨first, word, colon⟩
      · rw [if_neg (by simpa using more)]
        exact at_
    · rw [if_neg double] at h ⊢
      dsimp only at h ⊢
      have skipped : text.drop (len + if s.head? = some 58 then 1 else 0) =
          s.drop (if s.head? = some 58 then 1 else 0) := by rw [← place, List.drop_drop]
      generalize (if s.head? = some 58 then 1 else 0) = skip at skipped h ⊢
      generalize s.drop skip = w at skipped h ⊢
      have here (i : Nat) : text.drop (len + skip + i) = w.drop i := by
        rw [← skipped, List.drop_drop]
      have six : before.length = 12 ↔ n = 6 := by omega
      have longer (u : Nat) : (before ++ be16 u).length = 2 * (n + 1) := by
        rw [List.length_append, words]
        rfl
      by_cases word : (x.scan w).1 = 0
      · rw [if_pos word] at h
        cases h
      · rw [if_neg word] at h
        simp only [six, longer] at h
        by_cases dot : n = 6 ∧ (w.drop (x.scan w).1).head? = some 46
        · rw [if_pos dot] at h ⊢
          obtain ⟨⟨ip4, j⟩, found, same⟩ := Option.map_eq_some_iff.mp h
          cases same
          rw [found, if_neg Bool.false_ne_true, Nat.add_comm]
          exact here j
        · rw [if_neg dot] at h ⊢
          by_cases full : n + 1 = 8
          · rw [if_pos (by omega)] at h
            cases h
            rw [if_pos full, if_neg Bool.false_ne_true]
            exact here _
          · rw [if_neg (by omega)] at h
            rw [if_neg full]
            exact ih (longer _) (here _) h

theorem ip6Scan_left {s : Bytes} {read : Nat × Bytes} (h : ip6Scan x s = some read) :
    if (addressLeft x s).2 then
      s.drop read.1 = 58 :: (addressLeft x s).1 ∧ (x.scan (addressLeft x s).1).1 = 0 ∧
        (addressLeft x s).1.head? ≠ some 58
    else s.drop read.1 = (addressLeft x s).1 := by
  unfold ip6Scan at h
  unfold addressLeft
  cases found : ip4ScanAt s with
  | some read4 =>
    rw [found] at h
    cases h
    rw [if_neg Bool.false_ne_true]
  | none =>
    rw [found] at h
    exact scanWords_left (n := 0) reads rfl rfl h

omit reads in
/-- Behind an address that ends with a double colon, the scanner finds none. -/
theorem ip6Scan_colon {s : Bytes} (word : (x.scan s).1 = 0) (colon : s.head? ≠ some 58) :
    ip6Scan x (58 :: s) = none := by
  show scanWords x 8 (58 :: s) 0 [] = none
  rw [scanWords, if_neg fun h => colon h.2]
  simp only [List.head?_cons, if_true, List.drop_one, List.tail_cons, if_pos word]


end Leaving

/-! ## Both -/

section Both

variable {x} {ip : Bytes} (whole : ip.length = 16)

theorem mapped_words (mapped : Mapped ip) :
    (∀ i < 5, wordAt ip i = 0) ∧ wordAt ip 5 = 65535 := by
  have cut : ip = Dnscache.v4mappedprefix ++ ip.drop 12 := by
    rw [← mapped, List.take_append_drop]
  rw [cut]
  refine ⟨fun i hi => ?_, rfl⟩
  interval_cases i <;> rfl

include whole

/-- What is printed when the run of zeroes ends in front of the last word. -/
theorem ip6Fmt_squeezed {k : Nat} (five : k ≤ 5)
    (apart : ∀ i < k, ¬ (wordAt ip i = 0 ∧ wordAt ip (i + 1) = 0))
    (zeros : ∀ i, k ≤ i → i ≤ 6 → wordAt ip i = 0) (last : wordAt ip 7 ≠ 0) (more : Bytes) :
    ip6Fmt x (ip ++ more) = some (colons x ((List.range k).map (wordAt ip)) ++
      (if k = 0 then [58] else []) ++ 58 :: x.fmt (wordAt ip 7)) := by
  have plain : ¬ Mapped (ip ++ more) := fun mapped => by
    have ffff := (mapped_words ((mapped_append whole more).mp mapped)).2
    rw [zeros 5 five (by decide)] at ffff
    cases ffff
  have words := fun i hi => word_append whole (i := i) hi more
  have behind : k + (7 - k) = 7 := by omega
  rw [fmtLoop_run words (n := 7 - k) (by omega) (.inl plain) (by omega) (by omega) apart
    fun i lo hi => zeros i lo (by omega), behind]
  rw [fmtLoop_round (fun h => plain h.2) (words 7 (by decide)) (.inl ⟨rfl, rfl⟩), put_end last,
    if_neg (by decide)]
  simp only [fmtLoop, List.append_assoc, List.singleton_append]
  rfl

/-- What is printed for an IPv4 address. -/
theorem ip6Fmt_mapped (mapped : Mapped ip) (a b c d : UInt8) (tail : ip.drop 12 = [a, b, c, d])
    (more : Bytes) :
    ip6Fmt x (ip ++ more) = some (58 :: 58 :: (x.fmt 65535 ++ 58 :: ip4Fmt a b c d)) := by
  obtain ⟨zeros, ffff⟩ := mapped_words mapped
  have words := fun i hi => word_append whole (i := i) hi more
  have here : (12 : Nat) = 12 ∧ Mapped (ip ++ more) := ⟨rfl, (mapped_append whole more).mpr mapped⟩
  have octet (i : Nat) (hi : i < 4) : (ip ++ more)[12 + i]? = [a, b, c, d][i]? := by
    rw [List.getElem?_append_left (by omega), ← tail, List.getElem?_drop]
  rw [fmtLoop_run words (k := 0) (n := 5) (by decide) (.inr (by decide)) (by decide) (by decide)
    (fun i hi => absurd hi (Nat.not_lt_zero i)) fun i _ hi => zeros i (by omega)]
  show fmtLoop x (ip ++ more) (2 + 1) 10 ⟨true, 0, [58]⟩ = _
  rw [fmtLoop_round (by omega) (words 5 (by decide)) (.inl ⟨rfl, rfl⟩), ffff, put_end (by decide),
    if_pos (by decide), fmtLoop, if_pos here]
  have h0 := octet 0 (by decide)
  have h1 := octet 1 (by decide)
  have h2 := octet 2 (by decide)
  have h3 := octet 3 (by decide)
  simp only [Nat.add_zero] at h0 h1 h2 h3
  rw [h0, h1, h2, h3]
  show some (([58] ++ [58] ++ x.fmt 65535 ++ [58]) ++ ip4Fmt a b c d) = _
  simp only [List.append_assoc, List.cons_append, List.nil_append]

/-- Without a run of zeroes, and behind one, the printer reads past the last word. -/
theorem ip6Fmt_past {k : Nat} (six : k ≤ 6) (plain : ¬ Mapped ip)
    (apart : ∀ i < k, ¬ (wordAt ip i = 0 ∧ wordAt ip (i + 1) = 0)) {n : Nat} (two : 2 ≤ n)
    (zeros : ∀ i, k ≤ i → i < k + n → wordAt ip i = 0) (six' : k + n ≤ 6)
    (shown : wordAt ip (k + n) ≠ 0) : ip6Fmt x ip = none := by
  have words (i : Nat) (hi : i < 8) := word_inside whole hi
  have left : 8 - (k + n) = 6 - (k + n) + 1 + 1 := by omega
  have place : 2 * (k + n) + 2 = 2 * (7 - (6 - (k + n))) := by omega
  rw [fmtLoop_run words six (.inl plain) (by omega) two apart zeros, left,
    fmtLoop_round (fun h => plain h.2) (words (k + n) (by omega)) (.inl ⟨rfl, rfl⟩), put_end shown,
    place]
  exact fmtLoop_behind words (word_past whole) plain (by omega) (.inl (Nat.le_refl 1))

theorem ip6Fmt_apart (plain : ¬ Mapped ip)
    (apart : ∀ i < 7, ¬ (wordAt ip i = 0 ∧ wordAt ip (i + 1) = 0)) : ip6Fmt x ip = none := by
  have words (i : Nat) (hi : i < 8) := word_inside whole hi
  rw [ip6Fmt, fmtLoop_front words (Nat.le_refl 7) (fun _ => plain) apart]
  exact fmtLoop_behind words (word_past whole) plain (n := 0) (by decide) (.inr rfl)

/-- What is printed when the run of zeroes reaches the end. -/
theorem ip6Fmt_end {k : Nat} (six : k ≤ 6) (plain : ¬ Mapped ip)
    (apart : ∀ i < k, ¬ (wordAt ip i = 0 ∧ wordAt ip (i + 1) = 0))
    (zeros : ∀ i, k ≤ i → i < 8 → wordAt ip i = 0) :
    ip6Fmt x ip = some (colons x ((List.range k).map (wordAt ip)) ++
      (if k = 0 then [58] else []) ++ [58]) := by
  have words (i : Nat) (hi : i < 8) := word_inside whole hi
  have behind : k + (8 - k) = 8 := by omega
  rw [fmtLoop_run words (n := 8 - k) (by omega) (.inl plain) (by omega) (by omega) apart
    fun i lo hi => zeros i lo (by omega), behind]
  rfl

omit whole in
/-- The octets that the scanner puts together, with zeroes in the middle. -/
theorem spread_words {w : Nat → Nat} {k : Nat} (five : k ≤ 5) (zeros : ∀ i, k ≤ i → i ≤ 6 → w i = 0) :
    spread (((List.range k).map w).flatMap be16) (be16 (w 7)) =
      (List.range 8).flatMap fun i => be16 (w i) := by
  have eight : (List.range 8).flatMap (fun i => be16 (w i)) =
      be16 (w 0) ++ be16 (w 1) ++ be16 (w 2) ++ be16 (w 3) ++ be16 (w 4) ++ be16 (w 5) ++
        be16 (w 6) ++ be16 (w 7) := rfl
  rw [eight, zeros 6 (by omega) (by decide), zeros 5 (by omega) (by decide)]
  interval_cases k
  · rw [zeros 0 (by decide) (by decide), zeros 1 (by decide) (by decide),
      zeros 2 (by decide) (by decide), zeros 3 (by decide) (by decide),
      zeros 4 (by decide) (by decide)]
    rfl
  · rw [zeros 1 (by decide) (by decide), zeros 2 (by decide) (by decide),
      zeros 3 (by decide) (by decide), zeros 4 (by decide) (by decide)]
    rfl
  · rw [zeros 2 (by decide) (by decide), zeros 3 (by decide) (by decide),
      zeros 4 (by decide) (by decide)]
    rfl
  · rw [zeros 3 (by decide) (by decide), zeros 4 (by decide) (by decide)]
    rfl
  · rw [zeros 4 (by decide) (by decide)]
    rfl
  · rfl

variable (exact : x.Exact)
include exact

theorem front_read (k : Nat) (eight : k ≤ 7) (behind : Bytes) :
    ip6Scan x (colons x ((List.range k).map (wordAt ip)) ++ (if k = 0 then [58] else []) ++
      58 :: behind) = some (scanBehind x (((List.range k).map (wordAt ip)).flatMap be16) 8 behind
        ((colons x ((List.range k).map (wordAt ip))).length + (if k = 0 then 2 else 1)) (2 * k) []) := by
  have small (u : Nat) (hu : u ∈ (List.range k).map (wordAt ip)) : u < 65536 := by
    obtain ⟨i, hi, rfl⟩ := List.mem_map.mp hu
    exact wordAt_lt whole (by have := List.mem_range.mp hi; omega)
  have count : ((List.range k).map (wordAt ip)).length = k := by
    rw [List.length_map, List.length_range]
  have nil : (List.range k).map (wordAt ip) = [] ↔ k = 0 := by
    rw [List.map_eq_nil_iff, List.range_eq_nil]
  have read := ip6Scan_colons exact small (by omega) behind
  simp only [nil, count] at read
  exact read

theorem roundTrip_squeezed (squeezed : Squeezed ip) : RoundTrip x ip := by
  obtain ⟨k, five, apart, zeros, last⟩ := squeezed
  have printed := ip6Fmt_squeezed (x := x) whole five apart zeros last
  have alone := printed []
  rw [List.append_nil] at alone
  refine ⟨_, alone, printed, fun rest ends => ?_⟩
  rw [List.append_assoc, List.cons_append, front_read whole exact k (by omega),
    scanBehind_word exact (wordAt_lt whole (by decide)) ends (by omega), spread_words five zeros,
    octets_eq whole]
  simp only [List.length_append, List.length_cons]
  by_cases zero : k = 0
  · rw [if_pos zero, if_pos zero, List.length_singleton]
    congr 2
    omega
  · rw [if_neg zero, if_neg zero, List.length_nil]
    congr 2
    omega

theorem roundTrip_mapped (mapped : Mapped ip) : RoundTrip x ip := by
  obtain ⟨a, b, c, d, tail⟩ : ∃ a b c d, ip.drop 12 = [a, b, c, d] := by
    have four : (ip.drop 12).length = 4 := by rw [List.length_drop, whole]
    match ip.drop 12, four with
    | [a, b, c, d], _ => exact ⟨a, b, c, d, rfl⟩
  have printed := ip6Fmt_mapped (x := x) whole mapped a b c d tail
  have alone := printed []
  rw [List.append_nil] at alone
  have back : Dnscache.v4mappedprefix ++ [a, b, c, d] = ip := by
    rw [← mapped, ← tail, List.take_append_drop]
  refine ⟨_, alone, printed, fun rest ends => ?_⟩
  have front := @front_read x ip whole exact 0 (by decide)
    (x.fmt 65535 ++ 58 :: (ip4Fmt a b c d ++ rest))
  have read := @scanBehind_mapped x exact a b c d rest ends 2
  rw [back] at read
  simp only [List.cons_append, List.append_assoc, List.length_cons, List.length_append]
  show ip6Scan x (58 :: 58 :: (x.fmt 65535 ++ 58 :: (ip4Fmt a b c d ++ rest))) = _
  refine front.trans (congrArg some (read.trans ?_))
  congr 1
  omega

/-- **Printing and reading back**: it is the address that comes out, and all of the text that was read,
exactly for IPv4 addresses and where a run of zeroes ends in front of the last word. -/
theorem roundTrip_iff : RoundTrip x ip ↔ Mapped ip ∨ Squeezed ip := by
  refine ⟨?_, fun h => h.elim (roundTrip_mapped whole exact) (roundTrip_squeezed whole exact)⟩
  rintro ⟨text, printed, -, read⟩
  by_contra neither
  obtain ⟨plain, loose⟩ := not_or.mp neither
  by_cases pair : ∃ k, wordAt ip k = 0 ∧ wordAt ip (k + 1) = 0 ∧ k ≤ 6
  · obtain ⟨first, second, six⟩ := Nat.find_spec pair
    have apart (i : Nat) (hi : i < Nat.find pair) : ¬ (wordAt ip i = 0 ∧ wordAt ip (i + 1) = 0) :=
      fun h => Nat.find_min pair hi ⟨h.1, h.2, by omega⟩
    generalize Nat.find pair = k at first second six apart
    by_cases stop : ∃ j, k ≤ j ∧ j < 8 ∧ wordAt ip j ≠ 0
    · obtain ⟨low, high, shown⟩ := Nat.find_spec stop
      have zeros (i : Nat) (lo : k ≤ i) (hi : i < Nat.find stop) : wordAt ip i = 0 := by
        by_contra other
        exact Nat.find_min stop hi ⟨lo, by omega, other⟩
      generalize Nat.find stop = j at low high shown zeros
      have far : k + 2 ≤ j := by
        by_contra near
        obtain rfl | rfl : j = k ∨ j = k + 1 := by omega
        · exact shown first
        · exact shown second
      by_cases last : j = 7
      · exact loose ⟨k, by omega, apart, fun i lo hi => zeros i lo (by omega), last ▸ shown⟩
      · have sum : k + (j - k) = j := by omega
        have past := ip6Fmt_past (x := x) whole six plain apart (n := j - k) (by omega)
          (fun i lo hi => zeros i lo (by omega)) (by omega) (by rwa [sum])
        rw [past] at printed
        cases printed
    · have zeros (i : Nat) (lo : k ≤ i) (hi : i < 8) : wordAt ip i = 0 := by
        by_contra other
        exact stop ⟨i, lo, hi, other⟩
      rw [ip6Fmt_end whole six plain apart zeros] at printed
      cases printed
      -- the second colon is not counted
      have back := read [] fun b hb => by cases hb
      rw [List.append_nil, front_read whole exact k (by omega),
        scanBehind_nothing exact fun b hb => by cases hb] at back
      have count := congrArg Prod.fst (Option.some.inj back)
      simp only [List.length_append, List.length_singleton] at count
      by_cases zero : k = 0
      · rw [if_pos zero, if_pos zero, List.length_singleton] at count
        omega
      · rw [if_neg zero, if_neg zero, List.length_nil] at count
        omega
  · rw [ip6Fmt_apart whole plain fun i hi h => pair ⟨i, h.1, h.2, by omega⟩] at printed
    cases printed

end Both

/-! ## Numbers in hexadecimal -/

def fourDigits (u : Nat) : List Nat := [u / 4096 % 16, u / 256 % 16, u / 16 % 16, u % 16]

/-- The number that digits stand for, the first one before them. -/
def hexValue (u : Nat) (s : Bytes) : Nat := s.foldl (fun u b => 16 * u + ((fromhex b).getD 0).toNat) u

/-- At most four digits, without leading zeroes. -/
def hexadecimal : Xlong where
  fmt u := ((fourDigits u).take 3).dropWhile (· = 0) ++ [u % 16] |>.map fun d => tohex (.ofNat d)
  scan s := ((s.takeWhile isHexDigit).length, hexValue 0 (s.takeWhile isHexDigit))

theorem fromhex_digit : ∀ d < 16, fromhex (tohex (.ofNat d)) = some (.ofNat d) ∧
    (UInt8.ofNat d).toNat = d := by
  decide +kernel

theorem hexValue_digits {ds : List Nat} (small : ∀ d ∈ ds, d < 16) (u : Nat) :
    hexValue u (ds.map fun d => tohex (.ofNat d)) = ds.foldl (fun u d => 16 * u + d) u := by
  induction ds generalizing u with
  | nil => rfl
  | cons d ds ih =>
    obtain ⟨back, same⟩ := fromhex_digit d (small d List.mem_cons_self)
    rw [List.map_cons, hexValue, List.foldl_cons, back, Option.getD_some, same]
    exact ih (fun e he => small e (List.mem_cons_of_mem _ he)) _

theorem foldl_leading (ds es : List Nat) :
    (ds.dropWhile (· = 0) ++ es).foldl (fun u d => 16 * u + d) 0 =
      (ds ++ es).foldl (fun u d => 16 * u + d) 0 := by
  induction ds with
  | nil => rfl
  | cons d ds ih =>
    by_cases zero : d = 0
    · rw [List.dropWhile_cons_of_pos (by simpa using zero), ih, zero]
      rfl
    · rw [List.dropWhile_cons_of_neg (by simpa using zero)]

theorem hexadecimal_reads : hexadecimal.Reads :=
  ⟨fun s => Nat.le_refl _, fun s t same => by
    show (_, _) = (_, _)
    rw [same]⟩

theorem hexadecimal_exact : hexadecimal.Exact := by
  have small (u : Nat) (d : Nat) (hd : d ∈ ((fourDigits u).take 3).dropWhile (· = 0) ++ [u % 16]) :
      d < 16 := by
    rcases List.mem_append.mp hd with front | last
    · have four := List.mem_of_mem_take ((List.dropWhile_sublist _).subset front)
      simp only [fourDigits, List.mem_cons, List.not_mem_nil, or_false] at four
      omega
    · rw [List.mem_singleton.mp last]
      exact Nat.mod_lt _ (by decide)
  have digits (u : Nat) (b : UInt8) (hb : b ∈ hexadecimal.fmt u) : isHexDigit b = true := by
    obtain ⟨d, hd, rfl⟩ := List.mem_map.mp hb
    rw [isHexDigit, (fromhex_digit d (small u d hd)).1]
    rfl
  refine ⟨fun u => ⟨?_, digits u⟩, fun s => rfl, fun u hu rest stop => ?_⟩
  · intro nothing
    have none_left := List.map_eq_nil_iff.mp nothing
    exact List.cons_ne_nil _ _ (List.append_eq_nil_iff.mp none_left).2
  · have run : (hexadecimal.fmt u ++ rest).takeWhile isHexDigit = hexadecimal.fmt u := by
      rw [List.takeWhile_append_of_pos (digits u)]
      cases rest with
      | nil => rw [List.takeWhile_nil, List.append_nil]
      | cons b rest =>
        rw [List.takeWhile_cons, stop b rfl, if_neg Bool.false_ne_true, List.append_nil]
    show hexValue 0 ((hexadecimal.fmt u ++ rest).takeWhile isHexDigit) = u
    rw [run]
    show hexValue 0 (List.map _ _) = u
    rw [hexValue_digits (small u), foldl_leading]
    simp only [fourDigits, List.take_succ_cons, List.take_zero, List.cons_append, List.nil_append,
      List.foldl_cons, List.foldl_nil]
    omega

/-- `::1` and `::ffff:127.0.0.1` come back. -/
theorem roundTrip_loopback :
    RoundTrip hexadecimal [0, 0, 0, 0, 0, 0, 0, 0, 0, 0, 0, 0, 0, 0, 0, 1] ∧
      RoundTrip hexadecimal [0, 0, 0, 0, 0, 0, 0, 0, 0, 0, 255, 255, 127, 0, 0, 1] :=
  ⟨(roundTrip_iff rfl hexadecimal_exact).mpr (.inr ⟨0, by decide, by decide, by decide, by decide⟩),
    (roundTrip_iff rfl hexadecimal_exact).mpr (.inl (by decide))⟩

/-- `::` is read as one octet, and the words 1 to 8 are printed with a look at the octets behind. -/
theorem not_roundTrip_any :
    ¬ RoundTrip hexadecimal (List.replicate 16 0) ∧
      ¬ RoundTrip hexadecimal [0, 1, 0, 2, 0, 3, 0, 4, 0, 5, 0, 6, 0, 7, 0, 8] := by
  constructor
  · rintro ⟨text, printed, -, back⟩
    have colons : ip6Fmt hexadecimal (List.replicate 16 0) = some [58, 58] := rfl
    rw [colons] at printed
    cases printed
    have one : ip6Scan hexadecimal [58, 58] = some (1, List.replicate 16 0) := rfl
    have two := back [] fun b hb => by cases hb
    rw [List.append_nil, one] at two
    cases two
  · rintro ⟨text, printed, -⟩
    have past : ip6Fmt hexadecimal [0, 1, 0, 2, 0, 3, 0, 4, 0, 5, 0, 6, 0, 7, 0, 8] = none := rfl
    rw [past] at printed
    cases printed

end TinyDnssec.Ip6
