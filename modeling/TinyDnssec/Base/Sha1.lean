import TinyDnssec.Base.Bytes
import TinyDnssec.Base.Chaining

/-!
# SHA-1

The secure hash as FIPS 180 defines it. A message is padded to whole blocks of 64 octets (`pad`), and
each block takes the value of five words through 80 rounds (`compress`), one for each word of the
schedule that is made from the block.
-/

namespace SecureHash

open Octets Chaining

abbrev Word := BitVec 32

/-- The word at a place of a string, most significant octet first. -/
def wordAt (s : Bytes) (i : Nat) : Word :=
  (s.getD i 0).toBitVec ++ (s.getD (i + 1) 0).toBitVec ++ (s.getD (i + 2) 0).toBitVec ++
    (s.getD (i + 3) 0).toBitVec

/-- The five words that are taken from block to block. -/
structure Value where
  a : Word
  b : Word
  c : Word
  d : Word
  e : Word
deriving DecidableEq

def initial : Value := ⟨0x67452301#32, 0xefcdab89#32, 0x98badcfe#32, 0x10325476#32, 0xc3d2e1f0#32⟩

def Value.octets (v : Value) : Bytes :=
  be32 v.a.toNat ++ be32 v.b.toNat ++ be32 v.c.toNat ++ be32 v.d.toNat ++ be32 v.e.toNat

/-! ## The rounds -/

def ch (x y z : Word) : Word := (x &&& y) ^^^ (~~~x &&& z)

def parity (x y z : Word) : Word := x ^^^ y ^^^ z

def maj (x y z : Word) : Word := (x &&& y) ^^^ (x &&& z) ^^^ (y &&& z)

/-- The function of a round. -/
def f (t : Nat) : Word → Word → Word → Word :=
  if t < 20 then ch else if t < 40 then parity else if t < 60 then maj else parity

/-- The constant of a round. -/
def k (t : Nat) : Word :=
  if t < 20 then 0x5a827999#32
  else if t < 40 then 0x6ed9eba1#32
  else if t < 60 then 0x8f1bbcdc#32
  else 0xca62c1d6#32

/-- The next word of a schedule, from those before it. -/
def scheduled (ws : List Word) : Word :=
  let t := ws.length
  (ws.getD (t - 3) 0 ^^^ ws.getD (t - 8) 0 ^^^ ws.getD (t - 14) 0 ^^^ ws.getD (t - 16) 0).rotateLeft 1

/-- The schedule of a block as far as word `16 + n`. -/
def schedule (block : Bytes) : Nat → List Word
  | 0 => (List.range 16).map fun i => wordAt block (4 * i)
  | n + 1 => schedule block n ++ [scheduled (schedule block n)]

def round (ws : List Word) (v : Value) (t : Nat) : Value where
  a := v.a.rotateLeft 5 + f t v.b v.c v.d + v.e + k t + ws.getD t 0
  b := v.a
  c := v.b.rotateLeft 30
  d := v.c
  e := v.d

def rounds (ws : List Word) (v : Value) (t : Nat) : Value :=
  (List.range t).foldl (round ws) v

def Value.add (v u : Value) : Value := ⟨v.a + u.a, v.b + u.b, v.c + u.c, v.d + u.d, v.e + u.e⟩

def compress (v : Value) (block : Bytes) : Value :=
  v.add (rounds (schedule block 64) v 80)

/-! ## The digest -/

/-- A bit, zeros, and the number of bits, up to the end of a block. -/
def pad (m : Bytes) : Bytes :=
  m ++ 0x80 :: List.replicate ((119 - m.length % 64) % 64) 0 ++ be64 (8 * m.length)

def digest (m : Bytes) : Bytes :=
  (chain 64 compress initial (pad m)).octets

example : digest (ascii "abc") = [0xa9, 0x99, 0x3e, 0x36, 0x47, 0x06, 0x81, 0x6a, 0xba, 0x3e, 0x25, 0x71,
    0x78, 0x50, 0xc2, 0x6c, 0x9c, 0xd0, 0xd8, 0x9d] := by
  decide +kernel

@[simp] theorem digest_length (m : Bytes) : (digest m).length = 20 := rfl

/-! ## The schedule -/

theorem schedule_length (block : Bytes) (n : Nat) : (schedule block n).length = 16 + n := by
  induction n with
  | zero => simp [schedule]
  | succ n ih => simp [schedule, ih]; omega

/-- What a schedule has, it keeps. -/
theorem schedule_getD (block : Bytes) {n n' t : Nat} (more : n ≤ n') (inside : t < 16 + n) :
    (schedule block n').getD t 0 = (schedule block n).getD t 0 := by
  induction n', more using Nat.le_induction with
  | base => rfl
  | succ n' more ih =>
    rw [schedule, List.getD_append _ _ _ _ (by rw [schedule_length]; omega), ih]

theorem schedule_first (block : Bytes) {t : Nat} (first : t < 16) (n : Nat) :
    (schedule block n).getD t 0 = wordAt block (4 * t) := by
  rw [schedule_getD block (Nat.zero_le n) first]
  simp [schedule, List.getD_eq_getElem?_getD, first]

/-- **The schedule**: each later word is made from four before it. -/
theorem schedule_later (block : Bytes) {n t : Nat} (later : 16 ≤ t) (inside : t < 16 + n) :
    (schedule block n).getD t 0 =
      ((schedule block n).getD (t - 3) 0 ^^^ (schedule block n).getD (t - 8) 0 ^^^
        (schedule block n).getD (t - 14) 0 ^^^ (schedule block n).getD (t - 16) 0).rotateLeft 1 := by
  obtain ⟨i, rfl⟩ := Nat.exists_eq_add_of_le later
  have hlen := schedule_length block i
  have earlier : ∀ j, 1 ≤ j → j ≤ 16 →
      (schedule block n).getD (16 + i - j) 0 = (schedule block i).getD (16 + i - j) 0 := by
    intro j hj hj'
    exact schedule_getD block (by omega) (by omega)
  have hthis : (schedule block n).getD (16 + i) 0 = scheduled (schedule block i) := by
    rw [schedule_getD block (show i + 1 ≤ n by omega) (by omega), schedule,
      List.getD_append_right _ _ _ _ (by omega), hlen, Nat.sub_self]
    rfl
  rw [hthis, scheduled, hlen, earlier 3 (by omega) (by omega), earlier 8 (by omega) (by omega),
    earlier 14 (by omega) (by omega), earlier 16 (by omega) (by omega)]

theorem rounds_succ (ws : List Word) (v : Value) (t : Nat) :
    rounds ws v (t + 1) = round ws (rounds ws v t) t := by
  unfold rounds
  rw [List.range_succ, List.foldl_append]
  rfl

end SecureHash
