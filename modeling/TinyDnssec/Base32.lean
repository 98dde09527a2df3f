import TinyDnssec.Base.Groups
import TinyDnssec.Lookup.Denial

/-!
# base32hex

The labels of hashed names are written in the extended hex alphabet, five bits to a character. The
server does it in `base32hex.c`, with an `int`, and the signer in a function of its own, with Perl's
integers. Neither ever clears the bits it has written, so after a few octets both have lost the highest
of them; only the lowest ones are looked at again. Both write the same encoding.

`encoding` is that encoding, in bits and groups of five.
-/

namespace TinyDnssec.Base32

open Octets Groups Lookup

/-! ## The encoding -/

def alphabet : Bytes := ascii "0123456789abcdefghijklmnopqrstuv"

/-- The bits of a string, the highest of each octet first. -/
def octetBits (s : Bytes) : List Bool := s.flatMap fun b => bits 8 b.toNat

def encodeBits (l : List Bool) : Bytes := (groups 5 l).map fun g => alphabet.getD (value g) 0

/-- Base 32 with the extended hex alphabet in lower case, not padded. -/
def encoding (s : Bytes) : Bytes := encodeBits (octetBits s)

/-! ## `base32hex.c` -/

namespace C

/-- The variables of `base32hex`: `x` is where the next character is written in `out`. -/
structure Vars where
  buf : BitVec 32
  bits : Nat
  x : Nat
  out : Bytes

/-- `char c = … & 0x1f; *x++ = to_32hex(c);` -/
def put (c : BitVec 32) (v : Vars) : Vars :=
  { v with out := v.out.set v.x (to32hex (c &&& 31).toNat), x := v.x + 1 }

/-- `while (bits >= 5)` -/
def drain (v : Vars) : Vars :=
  if 5 ≤ v.bits then
    drain { put (v.buf.sshiftRight (v.bits - 5)) v with bits := v.bits - 5 }
  else v
termination_by v.bits

/-- `while (len-- > 0)` -/
def loop : Bytes → Vars → Vars
  | [], v => v
  | b :: s, v =>
    loop s (drain { v with buf := v.buf <<< 8 ||| BitVec.ofNat 32 b.toNat, bits := v.bits + 8 })

/-- What is written behind the loop. -/
def finish (v : Vars) : Vars :=
  if v.bits > 0 then put (v.buf <<< (5 - v.bits)) v else v

end C

/-- `base32hex`: what is in `out` behind it, and the length it returns. -/
def base32hex (out s : Bytes) : Bytes × Nat :=
  let v := C.finish (C.loop s ⟨0, 0, 0, out⟩)
  (v.out, v.x)

/-! ## `base32hex` of `tinydns-sign` -/

namespace Sign

/-- The variables of the signer's function, with integers of 64 bits. -/
structure Vars where
  buf : BitVec 64
  bits : Nat
  res : Bytes

/-- The two branches that append a digit. -/
def append (dig : Nat) (res : Bytes) : Bytes :=
  if dig < 10 then res ++ decimal dig else res ++ [UInt8.ofNat (dig + 87)]

/-- `while ($bits >= 5)` -/
def drain (v : Vars) : Vars :=
  if 5 ≤ v.bits then
    drain { v with
      res := append (v.buf >>> (v.bits - 5) &&& 31).toNat v.res
      bits := v.bits - 5 }
  else v
termination_by v.bits

/-- `while (length($data) > 0)` -/
def loop : Bytes → Vars → Vars
  | [], v => v
  | b :: s, v =>
    loop s (drain { v with buf := v.buf <<< 8 ||| BitVec.ofNat 64 b.toNat, bits := v.bits + 8 })

/-- The second loop over `$bits`: the signs the encoding is padded with. -/
def padding (bits : Nat) : Bytes :=
  if bits = 0 then []
  else if bits < 5 then padding (bits + 8)
  else 61 :: padding (bits - 5)
termination_by if 12 < bits then bits + 100 else if bits = 0 then 0
  else 2 * ((5 * bits + 7) % 8 + 1) + if bits < 5 then 1 else 0
decreasing_by all_goals (split_ifs <;> omega)

def base32hex (data : Bytes) : Bytes :=
  let v := loop data ⟨0, 0, []⟩
  if v.bits > 0 then
    append (v.buf <<< (5 - v.bits) &&& 31).toNat v.res ++ padding (v.bits + 3)
  else v.res

end Sign

/-! ## Digits -/

theorem to32hex_eq : ∀ c < 32, to32hex c = alphabet.getD c 0 := by
  decide

theorem append_eq (dig : Nat) (res : Bytes) : Sign.append dig res = res ++ [to32hex dig] := by
  unfold Sign.append to32hex
  split
  · rename_i low
    rw [decimal_one low, digitOctet, Nat.add_comm]
  · rfl

@[simp] theorem encodeBits_nil : encodeBits [] = [] := by
  unfold encodeBits
  rw [groups_nil, List.map_nil]

theorem encodeBits_append {g : List Bool} (five : g.length = 5) (l : List Bool) :
    encodeBits (g ++ l) = to32hex (value g) :: encodeBits l := by
  have low : value g < 2 ^ 5 := five ▸ value_lt g
  unfold encodeBits
  rw [groups_append five (by decide), List.map_cons, to32hex_eq _ low]

/-- `while (bits >= 5)` writes the groups that are complete. -/
theorem encodeBits_digits (buf m : Nat) (l : List Bool) :
    encodeBits (bits m buf ++ l) = base32Digits buf m ++ encodeBits (bits (m % 5) buf ++ l) := by
  induction m using base32Digits.induct with
  | case1 m ih =>
    have first : value (bits 5 (buf >>> m)) = buf >>> m % 32 := value_bits 5 _
    have split : bits (m + 5) buf = bits 5 (buf >>> m) ++ bits m buf := by
      rw [Nat.add_comm, bits_add]
    change encodeBits (bits (m + 5) buf ++ l) =
      base32Digits buf (m + 5) ++ encodeBits (bits ((m + 5) % 5) buf ++ l)
    rw [split, List.append_assoc, encodeBits_append (bits_length _ _), first, ih, Nat.add_mod_right]
    rfl
  | case2 m few =>
    have small : m < 5 := by
      by_contra large
      exact few (m - 5) (by omega)
    have nothing : base32Digits buf m = [] := by
      unfold base32Digits
      split
      · omega
      · rfl
    rw [nothing, Nat.mod_eq_of_lt small]
    rfl

/-- What is written behind the loop is the last group, with zeros. -/
theorem encodeBits_rest {buf m : Nat} (some : 0 < m) (few : m < 5) :
    encodeBits (bits m buf) = [to32hex (buf <<< (5 - m) % 32)] := by
  have nonempty : bits m buf ≠ [] := List.ne_nil_of_length_pos (by rwa [bits_length])
  have filled : bits m buf ++ List.replicate (5 - m) false = bits 5 (buf <<< (5 - m)) := by
    have pushed := bits_push m (5 - m) buf (Nat.two_pow_pos (5 - m))
    rw [Nat.or_zero, bits_zero, Nat.add_sub_cancel' few.le] at pushed
    exact pushed.symm
  unfold encodeBits
  rw [groups_rest nonempty (by rw [bits_length]; exact few.le), bits_length, filled, List.map_singleton,
    value_bits]
  rw [to32hex_eq _ (Nat.mod_lt _ (by decide))]
  rfl

/-- An octet is moved in from below, and the accumulator keeps no more than its own width. -/
theorem bits_moved {w m : Nat} (room : m + 8 ≤ w) (buf : BitVec w) (b : UInt8) :
    bits (m + 8) (buf <<< 8 ||| BitVec.ofNat w b.toNat).toNat =
      bits m buf.toNat ++ bits 8 b.toNat := by
  have octet : b.toNat < 2 ^ 8 := b.toNat_lt
  have whole : b.toNat < 2 ^ w := octet.trans_le (Nat.pow_le_pow_right (by decide) (by omega))
  rw [BitVec.toNat_or, BitVec.toNat_shiftLeft, BitVec.toNat_ofNat, Nat.mod_eq_of_lt whole,
    ← Nat.mod_eq_of_lt whole, ← Nat.or_mod_two_pow, bits_mod _ room, Nat.mod_eq_of_lt whole,
    bits_push m 8 _ octet]

/-- The pure encoder of the lookups writes this encoding. -/
theorem base32hexGo_eq {buf m : Nat} (few : m < 5) (s : Bytes) :
    base32hexGo buf m s = encodeBits (bits m buf ++ octetBits s) := by
  induction s generalizing buf m with
  | nil =>
    unfold base32hexGo octetBits
    rw [List.flatMap_nil, List.append_nil]
    split
    · rename_i some
      exact (encodeBits_rest some few).symm
    · rename_i none
      rw [Nat.eq_zero_of_not_pos none]
      exact encodeBits_nil.symm
  | cons b s ih =>
    unfold base32hexGo octetBits
    simp only []
    rw [List.flatMap_cons, ← List.append_assoc, ← bits_push m 8 buf b.toNat_lt, encodeBits_digits,
      ih (Nat.mod_lt _ (by decide))]
    rfl

/-! ## What is read of the accumulator -/

theorem base32Digits_more {buf m : Nat} (some : 5 ≤ m) :
    base32Digits buf m = to32hex (buf >>> (m - 5) % 32) :: base32Digits buf (m - 5) := by
  obtain ⟨k, rfl⟩ := Nat.exists_eq_add_of_le' some
  rfl

theorem base32Digits_few {buf m : Nat} (few : m < 5) : base32Digits buf m = [] := by
  unfold base32Digits
  split
  · omega
  · rfl

/-- The sign is shifted in far above the five bits that are taken. -/
theorem sshiftRight_digit (buf : BitVec 32) {k : Nat} (h : k + 5 ≤ 32) :
    (buf.sshiftRight k &&& 31).toNat = buf.toNat >>> k % 32 := by
  apply Nat.eq_of_testBit_eq
  intro i
  have mask : (31 : BitVec 32).toNat = 2 ^ 5 - 1 := rfl
  rw [BitVec.toNat_and, mask, Nat.and_two_pow_sub_one_eq_mod]
  change _ = (buf.toNat >>> k % 2 ^ 5).testBit i
  rw [Nat.testBit_mod_two_pow, Nat.testBit_mod_two_pow, Nat.testBit_shiftRight]
  by_cases low : i < 5
  · have inside : k + i < 32 := by omega
    have here : ¬ 32 ≤ i := by omega
    simp [BitVec.testBit_toNat, BitVec.getLsbD_sshiftRight, low, inside, here]
  · simp [low]

theorem shiftRight_digit (buf : BitVec 64) (k : Nat) :
    (buf >>> k &&& 31).toNat = buf.toNat >>> k % 32 := by
  rw [BitVec.toNat_and, BitVec.toNat_ushiftRight]
  exact Nat.and_two_pow_sub_one_eq_mod _ 5

theorem shiftLeft_digit {w : Nat} (wide : 5 ≤ w) (buf : BitVec w) (k : Nat) :
    (buf <<< k &&& 31).toNat = buf.toNat <<< k % 32 := by
  have small : 31 < 2 ^ w := Nat.lt_of_lt_of_le (by decide) (Nat.pow_le_pow_right (by decide) wide)
  have mask : (31 : BitVec w).toNat = 2 ^ 5 - 1 := by
    change (BitVec.ofNat w 31).toNat = 31
    rw [BitVec.toNat_ofNat, Nat.mod_eq_of_lt small]
  rw [BitVec.toNat_and, mask, Nat.and_two_pow_sub_one_eq_mod, BitVec.toNat_shiftLeft,
    Nat.mod_mod_of_dvd _ (Nat.pow_dvd_pow 2 wide)]

/-! ## What is written -/

theorem patch_set {buf : Bytes} {pos : Nat} (inside : pos < buf.length) (b : UInt8) (s : Bytes) :
    patch (buf.set pos b) (pos + 1) s = patch buf pos (b :: s) := by
  have front : (buf.set pos b).take (pos + 1) = buf.take pos ++ [b] := by
    rw [List.take_add_one, List.take_set_of_le (Nat.le_refl pos), List.getElem?_set_self inside,
      Option.toList_some]
  unfold patch
  rw [front, List.drop_set_of_lt (by omega), List.length_cons, Nat.add_right_comm, Nat.add_assoc,
    ← List.append_cons]

theorem patch_nil (buf : Bytes) (pos : Nat) : patch buf pos [] = buf := by
  unfold patch
  rw [List.append_nil, List.length_nil, Nat.add_zero, List.take_append_drop]

namespace C

/-- The characters that the loop has in hand are written behind those that are there. -/
theorem drain_eq (v : Vars) (narrow : v.bits ≤ 32)
    (room : v.x + (base32Digits v.buf.toNat v.bits).length ≤ v.out.length) :
    drain v = ⟨v.buf, v.bits % 5, v.x + (base32Digits v.buf.toNat v.bits).length,
      patch v.out v.x (base32Digits v.buf.toNat v.bits)⟩ := by
  induction v using drain.induct with
  | case1 v some ih =>
    rw [base32Digits_more some, List.length_cons] at room ⊢
    have step := ih (by simp only []; omega) (by
      simp only [put, List.length_set]
      omega)
    rw [drain, if_pos some, step]
    simp only [put]
    rw [sshiftRight_digit v.buf (by omega), patch_set (by omega), ← Nat.mod_eq_sub_mod some,
      Nat.add_right_comm, Nat.add_assoc]
  | case2 v none =>
    have few : v.bits < 5 := Nat.lt_of_not_le none
    rw [drain, if_neg none, base32Digits_few few, patch_nil, Nat.mod_eq_of_lt few]
    rfl

/-- **The loop, with what follows it, writes the encoding** of the bits it has and of the string. -/
theorem finish_loop (s : Bytes) {v : Vars} (few : v.bits < 5)
    (room : v.x + (encodeBits (Groups.bits v.bits v.buf.toNat ++ octetBits s)).length ≤ v.out.length) :
    (finish (loop s v)).out =
        patch v.out v.x (encodeBits (Groups.bits v.bits v.buf.toNat ++ octetBits s)) ∧
      (finish (loop s v)).x =
        v.x + (encodeBits (Groups.bits v.bits v.buf.toNat ++ octetBits s)).length := by
  induction s generalizing v with
  | nil =>
    unfold octetBits at room ⊢
    rw [List.flatMap_nil, List.append_nil] at room ⊢
    unfold loop finish
    split
    · rename_i some
      rw [encodeBits_rest some few] at room ⊢
      rw [List.length_singleton] at room ⊢
      unfold put
      rw [shiftLeft_digit (by decide), ← patch_set (by omega), patch_nil]
      exact ⟨rfl, rfl⟩
    · rename_i none
      rw [Nat.eq_zero_of_not_pos none]
      change v.out = patch v.out v.x (encodeBits []) ∧ v.x = v.x + (encodeBits []).length
      rw [encodeBits_nil, patch_nil]
      exact ⟨rfl, rfl⟩
  | cons b s ih =>
    have moved := @bits_moved 32 v.bits (by omega) v.buf b
    have parts : encodeBits (Groups.bits v.bits v.buf.toNat ++ octetBits (b :: s)) =
        base32Digits (v.buf <<< 8 ||| BitVec.ofNat 32 b.toNat).toNat (v.bits + 8) ++
          encodeBits (Groups.bits ((v.bits + 8) % 5)
            (v.buf <<< 8 ||| BitVec.ofNat 32 b.toNat).toNat ++ octetBits s) := by
      unfold octetBits
      rw [List.flatMap_cons, ← List.append_assoc, ← moved, encodeBits_digits]
    rw [parts, List.length_append] at room ⊢
    unfold loop
    rw [drain_eq _ (by simp only []; omega) (by simp only []; omega)]
    simp only []
    generalize v.buf <<< 8 ||| BitVec.ofNat 32 b.toNat = buf at room ⊢
    generalize base32Digits buf.toNat (v.bits + 8) = digits at room ⊢
    have fits : v.x + digits.length ≤ v.out.length := by omega
    obtain ⟨out, x⟩ := @ih ⟨buf, (v.bits + 8) % 5, v.x + digits.length, patch v.out v.x digits⟩
      (Nat.mod_lt _ (by decide)) (by
        rw [patch_length fits]
        simp only []
        omega)
    refine ⟨?_, ?_⟩
    · rw [out, patch_patch _ _ fits]
    · rw [x, Nat.add_assoc]

end C

namespace Sign

theorem drain_eq (v : Vars) :
    drain v = ⟨v.buf, v.bits % 5, v.res ++ base32Digits v.buf.toNat v.bits⟩ := by
  induction v using drain.induct with
  | case1 v some ih =>
    rw [drain, if_pos some, ih]
    simp only []
    rw [append_eq, shiftRight_digit, base32Digits_more some, ← Nat.mod_eq_sub_mod some,
      List.append_assoc]
    rfl
  | case2 v none =>
    have few : v.bits < 5 := Nat.lt_of_not_le none
    rw [drain, if_neg none, base32Digits_few few, List.append_nil, Nat.mod_eq_of_lt few]

/-- The signer's loop writes the groups that are complete, and has the bits left that make none. -/
theorem loop_spec (s : Bytes) {v : Vars} (few : v.bits < 5) :
    (loop s v).bits = (v.bits + 8 * s.length) % 5 ∧
      v.res ++ encodeBits (Groups.bits v.bits v.buf.toNat ++ octetBits s) =
        (loop s v).res ++ encodeBits (Groups.bits (loop s v).bits (loop s v).buf.toNat) := by
  induction s generalizing v with
  | nil =>
    unfold loop octetBits
    rw [List.flatMap_nil, List.append_nil]
    exact ⟨(Nat.mod_eq_of_lt few).symm, rfl⟩
  | cons b s ih =>
    have moved := @bits_moved 64 v.bits (by omega) v.buf b
    unfold loop
    rw [drain_eq]
    obtain ⟨left, written⟩ := @ih ⟨v.buf <<< 8 ||| BitVec.ofNat 64 b.toNat, (v.bits + 8) % 5,
      v.res ++ base32Digits (v.buf <<< 8 ||| BitVec.ofNat 64 b.toNat).toNat (v.bits + 8)⟩
      (Nat.mod_lt _ (by decide))
    refine ⟨?_, ?_⟩
    · rw [left, List.length_cons]
      simp only []
      omega
    · rw [← written]
      simp only []
      unfold octetBits
      rw [List.flatMap_cons, ← List.append_assoc, ← moved, encodeBits_digits, List.append_assoc]

/-- What the signer writes, for a string whose bits fill its groups and for any other. -/
theorem base32hex_eq (s : Bytes) :
    base32hex s = encoding s ++
      if 8 * s.length % 5 = 0 then [] else padding (8 * s.length % 5 + 3) := by
  obtain ⟨left, written⟩ := @loop_spec s ⟨0, 0, []⟩ (by decide)
  change [] ++ encoding s = _ at written
  rw [List.nil_append] at written
  rw [Nat.zero_add] at left
  have few : 8 * s.length % 5 < 5 := Nat.mod_lt _ (by decide)
  unfold base32hex
  simp only []
  rw [written, left]
  by_cases none : 8 * s.length % 5 = 0
  · rw [if_neg (by omega), if_pos none, none, List.append_nil]
    change _ = _ ++ encodeBits []
    rw [encodeBits_nil, List.append_nil]
  · rw [if_pos (Nat.pos_of_ne_zero none), if_neg none, append_eq, shiftLeft_digit (by decide),
      encodeBits_rest (Nat.pos_of_ne_zero none) few]

end Sign

/-! ## The two encoders -/

theorem encoding_length (s : Bytes) : (encoding s).length = (8 * s.length + 4) / 5 := by
  have written := @base32hexGo_eq 0 0 (by decide) s
  have size := @base32hexGo_length 0 0 (by decide) s
  rw [written, Nat.zero_add] at size
  exact size

theorem octetBits_length (s : Bytes) : (octetBits s).length = 8 * s.length := by
  unfold octetBits
  simp [Nat.mul_comm]

/-- The bits of a string are those of one string only. -/
theorem octetBits_inj {s t : Bytes} (h : octetBits s = octetBits t) : s = t := by
  have size := congrArg List.length h
  rw [octetBits_length, octetBits_length] at size
  induction s generalizing t with
  | nil => exact (List.length_eq_zero_iff.mp (by rw [List.length_nil] at size; omega)).symm
  | cons b s ih =>
    cases t with
    | nil => cases size
    | cons c t =>
      unfold octetBits at h
      rw [List.flatMap_cons, List.flatMap_cons] at h
      obtain ⟨first, rest⟩ := List.append_inj h (by rw [bits_length, bits_length])
      have number := congrArg value first
      rw [value_bits, value_bits, Nat.mod_eq_of_lt b.toNat_lt, Nat.mod_eq_of_lt c.toNat_lt] at number
      rw [UInt8.toNat_inj.mp number, ih rest (by rw [List.length_cons, List.length_cons] at size; omega)]

theorem alphabet_idxOf : ∀ c < 32, alphabet.idxOf (alphabet.getD c 0) = c := by
  decide +kernel

/-- The groups are read again from the characters. -/
theorem groups_encodeBits (l : List Bool) :
    (encodeBits l).map (fun c => bits 5 (alphabet.idxOf c)) = groups 5 l := by
  unfold encodeBits
  rw [List.map_map]
  apply (List.map_congr_left ?_).trans (List.map_id _)
  intro g hg
  have five := groups_lengths l g hg
  have low : value g < 2 ^ 5 := five ▸ value_lt g
  apply value_inj
  · rw [id, five]
    exact bits_length 5 _
  · simp only [Function.comp_apply, id]
    rw [value_bits, alphabet_idxOf _ low, Nat.mod_eq_of_lt low]

theorem encodeBits_inj {l m : List Bool} (size : l.length = m.length)
    (h : encodeBits l = encodeBits m) : l = m := by
  apply groups_inj (show 0 < 5 by decide) size
  rw [← groups_encodeBits, h, groups_encodeBits]

theorem encoding_inj {s t : Bytes} (size : s.length = t.length) (h : encoding s = encoding t) :
    s = t := by
  apply octetBits_inj
  apply encodeBits_inj _ h
  rw [octetBits_length, octetBits_length, size]

example : encoding (ascii "foobar") = ascii "cpnmuoj1e8" := by
  decide +kernel

/-- What the lookups put in front of a zone is this encoding. -/
theorem lookup_eq (s : Bytes) : Lookup.base32hex s = encoding s := by
  unfold Lookup.base32hex encoding
  rw [base32hexGo_eq (by decide)]
  rfl

/-- Where there is room, the encoding is written from the start of `out` on, and nothing else. -/
theorem base32hex_eq {s out : Bytes} (room : (8 * s.length + 4) / 5 ≤ out.length) :
    base32hex out s = (patch out 0 (encoding s), (8 * s.length + 4) / 5) := by
  rw [← encoding_length] at room ⊢
  obtain ⟨written, count⟩ := @C.finish_loop s ⟨0, 0, 0, out⟩ (Nat.zero_lt_succ 4) (by
    rw [Nat.zero_add]
    exact room)
  rw [Nat.zero_add] at count
  exact Prod.ext written count

/-- **`base32hex`** writes the encoding and returns its length, for strings of any length, though its
accumulator overflows after four octets. Two strings of one length are never written alike, and the
signer writes what the server writes for a hash. -/
theorem base32hex_encodes :
    (∀ s out : Bytes, (8 * s.length + 4) / 5 ≤ out.length →
      base32hex out s = (patch out 0 (encoding s), (8 * s.length + 4) / 5)) ∧
      (∀ s : Bytes, (encoding s).length = (8 * s.length + 4) / 5) ∧
      (∀ s t out : Bytes, s.length = t.length → (8 * s.length + 4) / 5 ≤ out.length →
        base32hex out s = base32hex out t → s = t) ∧
      ∀ s out : Bytes, s.length = 20 → 32 ≤ out.length →
        (base32hex out s).1.take (base32hex out s).2 = Sign.base32hex s := by
  have start (s out : Bytes) : (patch out 0 (encoding s)).take (encoding s).length = encoding s := by
    rw [patch_zero, List.take_left]
  refine ⟨fun s out => base32hex_eq, encoding_length, ?_, ?_⟩
  · intro s t out size room same
    rw [base32hex_eq room, base32hex_eq (size ▸ room)] at same
    apply encoding_inj size
    have one := congrArg (List.take (encoding s).length) (Prod.ext_iff.mp same).1
    have count : (encoding s).length = (encoding t).length := by
      rw [encoding_length, encoding_length, size]
    rwa [start, count, start] at one
  · intro s out size room
    have fits : (8 * s.length + 4) / 5 ≤ out.length := by omega
    have whole : 8 * s.length % 5 = 0 := by omega
    rw [base32hex_eq fits, Sign.base32hex_eq, if_pos whole, List.append_nil]
    simp only []
    rw [← encoding_length, start]

theorem base32hex_encodes_fooba :
    base32hex (List.replicate 10 42) (ascii "fooba") = (ascii "cpnmuoj1**", 8) := by
  obtain ⟨written, -⟩ := base32hex_encodes
  have encoded : encoding (ascii "fooba") = ascii "cpnmuoj1" := by decide +kernel
  rw [written (ascii "fooba") (List.replicate 10 42) (by decide), encoded]
  decide

end TinyDnssec.Base32
