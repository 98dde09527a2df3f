import TinyDnssec.Base.Memory
import TinyDnssec.Base.Sha1
import TinyDnssec.Lookup.Denial

/-!
# `sha1.c`

The hash of NSEC3 is computed by contexts that are fed a message piece by piece. A context keeps the
value of five words, the number of bits in two words, and the octets behind the last whole block. The
block that is hashed is expanded in place, sixteen words that go around, and the five working variables
keep their places while their roles go around.

However a message is cut into pieces of less than 2^29 octets, the digest is its SHA-1 (`final_eq`), and
`addNSEC3Cover` computes the iterated hash of a name and a salt (`coverDigest_eq`). A piece of 2^29
octets carries into `count[1]` twice.

Nothing is said about collisions.
-/

namespace TinyDnssec.Sha1

open Octets Chaining Lookup
open SecureHash (Word Value wordAt)

/-! ## `dnsSHA1_Transform` -/

/-- `BYTE_ORDER` -/
inductive ByteOrder
  | bigEndian
  | littleEndian

/-- `block->l[i]`, as the machine reads the octets of the union. -/
def ByteOrder.load (order : ByteOrder) (s : Bytes) (i : Nat) : Word :=
  match order with
  | .bigEndian => wordAt s (4 * i)
  | .littleEndian =>
    wordAt [s.getD (4 * i + 3) 0, s.getD (4 * i + 2) 0, s.getD (4 * i + 1) 0, s.getD (4 * i) 0] 0

/-- The working variables. -/
inductive Var
  | a | b | c | d | e
deriving DecidableEq

structure Turn where
  vars : Var → Word
  block : List Word

def rol (value : Word) (bits : Nat) : Word := (value <<< bits) ||| (value >>> (32 - bits))

def blk0 (order : ByteOrder) (i : Nat) (block : List Word) : List Word :=
  match order with
  | .bigEndian => block
  | .littleEndian => block.set i ((rol (block.getD i 0) 24 &&& 0xff00ff00#32) |||
      (rol (block.getD i 0) 8 &&& 0x00ff00ff#32))

def blk (i : Nat) (block : List Word) : List Word :=
  block.set (i &&& 15) (rol (block.getD ((i + 13) &&& 15) 0 ^^^ block.getD ((i + 8) &&& 15) 0 ^^^
    block.getD ((i + 2) &&& 15) 0 ^^^ block.getD (i &&& 15) 0) 1)

/-- What the macros share: `f` of three variables, the constant `k`, and the word that `blk` leaves at
its place. -/
def R (f : Word → Word → Word → Word) (k : Word) (blk : List Word → List Word) (place : Nat)
    (v w x y z : Var) (s : Turn) : Turn :=
  let block := blk s.block
  let vars := Function.update s.vars z
    (s.vars z + (f (s.vars w) (s.vars x) (s.vars y) + block.getD place 0 + k + rol (s.vars v) 5))
  ⟨Function.update vars w (rol (vars w) 30), block⟩

def R0 (order : ByteOrder) (v w x y z : Var) (i : Nat) : Turn → Turn :=
  R (fun w x y => (w &&& (x ^^^ y)) ^^^ y) 0x5a827999#32 (blk0 order i) i v w x y z

def R1 (v w x y z : Var) (i : Nat) : Turn → Turn :=
  R (fun w x y => (w &&& (x ^^^ y)) ^^^ y) 0x5a827999#32 (blk i) (i &&& 15) v w x y z

def R2 (v w x y z : Var) (i : Nat) : Turn → Turn :=
  R (fun w x y => w ^^^ x ^^^ y) 0x6ed9eba1#32 (blk i) (i &&& 15) v w x y z

def R3 (v w x y z : Var) (i : Nat) : Turn → Turn :=
  R (fun w x y => ((w ||| x) &&& y) ||| (w &&& x)) 0x8f1bbcdc#32 (blk i) (i &&& 15) v w x y z

def R4 (v w x y z : Var) (i : Nat) : Turn → Turn :=
  R (fun w x y => w ^^^ x ^^^ y) 0xca62c1d6#32 (blk i) (i &&& 15) v w x y z

/-- `4 rounds of 20 operations each. Loop unrolled.` -/
def operations (order : ByteOrder) : List (Turn → Turn) :=
  let R0 := R0 order
  [R0 .a .b .c .d .e 0, R0 .e .a .b .c .d 1, R0 .d .e .a .b .c 2, R0 .c .d .e .a .b 3,
    R0 .b .c .d .e .a 4, R0 .a .b .c .d .e 5, R0 .e .a .b .c .d 6, R0 .d .e .a .b .c 7,
    R0 .c .d .e .a .b 8, R0 .b .c .d .e .a 9, R0 .a .b .c .d .e 10, R0 .e .a .b .c .d 11,
    R0 .d .e .a .b .c 12, R0 .c .d .e .a .b 13, R0 .b .c .d .e .a 14, R0 .a .b .c .d .e 15,
    R1 .e .a .b .c .d 16, R1 .d .e .a .b .c 17, R1 .c .d .e .a .b 18, R1 .b .c .d .e .a 19,
    R2 .a .b .c .d .e 20, R2 .e .a .b .c .d 21, R2 .d .e .a .b .c 22, R2 .c .d .e .a .b 23,
    R2 .b .c .d .e .a 24, R2 .a .b .c .d .e 25, R2 .e .a .b .c .d 26, R2 .d .e .a .b .c 27,
    R2 .c .d .e .a .b 28, R2 .b .c .d .e .a 29, R2 .a .b .c .d .e 30, R2 .e .a .b .c .d 31,
    R2 .d .e .a .b .c 32, R2 .c .d .e .a .b 33, R2 .b .c .d .e .a 34, R2 .a .b .c .d .e 35,
    R2 .e .a .b .c .d 36, R2 .d .e .a .b .c 37, R2 .c .d .e .a .b 38, R2 .b .c .d .e .a 39,
    R3 .a .b .c .d .e 40, R3 .e .a .b .c .d 41, R3 .d .e .a .b .c 42, R3 .c .d .e .a .b 43,
    R3 .b .c .d .e .a 44, R3 .a .b .c .d .e 45, R3 .e .a .b .c .d 46, R3 .d .e .a .b .c 47,
    R3 .c .d .e .a .b 48, R3 .b .c .d .e .a 49, R3 .a .b .c .d .e 50, R3 .e .a .b .c .d 51,
    R3 .d .e .a .b .c 52, R3 .c .d .e .a .b 53, R3 .b .c .d .e .a 54, R3 .a .b .c .d .e 55,
    R3 .e .a .b .c .d 56, R3 .d .e .a .b .c 57, R3 .c .d .e .a .b 58, R3 .b .c .d .e .a 59,
    R4 .a .b .c .d .e 60, R4 .e .a .b .c .d 61, R4 .d .e .a .b .c 62, R4 .c .d .e .a .b 63,
    R4 .b .c .d .e .a 64, R4 .a .b .c .d .e 65, R4 .e .a .b .c .d 66, R4 .d .e .a .b .c 67,
    R4 .c .d .e .a .b 68, R4 .b .c .d .e .a 69, R4 .a .b .c .d .e 70, R4 .e .a .b .c .d 71,
    R4 .d .e .a .b .c 72, R4 .c .d .e .a .b 73, R4 .b .c .d .e .a 74, R4 .a .b .c .d .e 75,
    R4 .e .a .b .c .d 76, R4 .d .e .a .b .c 77, R4 .c .d .e .a .b 78, R4 .b .c .d .e .a 79]

/-- `Copy context->state[] to working vars` -/
def working (state : Value) : Var → Word
  | .a => state.a
  | .b => state.b
  | .c => state.c
  | .d => state.d
  | .e => state.e

/-- The block is copied into the workspace. -/
def enter (order : ByteOrder) (state : Value) (buffer : Bytes) : Turn :=
  ⟨working state, (List.range 16).map (order.load buffer)⟩

def transform (order : ByteOrder) (state : Value) (buffer : Bytes) : Value × List Word :=
  let s := (operations order).foldl (fun s op => op s) (enter order state buffer)
  (⟨state.a + s.vars .a, state.b + s.vars .b, state.c + s.vars .c, state.d + s.vars .d,
    state.e + s.vars .e⟩, s.block)

/-! ## Contexts -/

/-- A `dnsSHA1_CTX`, and with it the static `workspace` of `dnsSHA1_Transform`. -/
structure Ctx where
  state : Value
  count0 : Word
  count1 : Word
  buffer : Bytes
  workspace : List Word

def Ctx.transform (order : ByteOrder) (s : Ctx) (buffer : Bytes) : Ctx :=
  let hashed := Sha1.transform order s.state buffer
  { s with state := hashed.1, workspace := hashed.2 }

def init (s : Ctx) : Ctx :=
  { s with
    state := ⟨0x67452301#32, 0xefcdab89#32, 0x98badcfe#32, 0x10325476#32, 0xc3d2e1f0#32⟩
    count0 := 0
    count1 := 0 }

/-- `for ( ; i + 63 < len; i += 64)` -/
def transformAll (order : ByteOrder) (data : Bytes) : Nat → Nat → Ctx → Nat × Ctx
  | 0, i, s => (i, s)
  | rounds + 1, i, s =>
    if i + 63 < data.length then
      transformAll order data rounds (i + 64) (s.transform order ((data.drop i).take 64))
    else (i, s)

/-- `count[0] += len << 3` and the carry. The comparison is one of 64 bits. -/
def Ctx.count (s : Ctx) (len : Nat) : Ctx :=
  let bits := (len <<< 3) % 2 ^ 64
  let count0 := s.count0 + BitVec.ofNat 32 bits
  let count1 := if count0.toNat < bits then s.count1 + 1 else s.count1
  { s with count0, count1 := count1 + BitVec.ofNat 32 (len >>> 29) }

/-- `if ((j + len) > 63)` -/
def Ctx.fill (order : ByteOrder) (data : Bytes) (j : Nat) (s : Ctx) : Ctx :=
  let s := { s with buffer := patch s.buffer j (data.take (64 - j)) }
  let (i, s) := transformAll order data data.length (64 - j) (s.transform order s.buffer)
  { s with buffer := patch s.buffer 0 (data.drop i) }

def update (order : ByteOrder) (s : Ctx) (data : Bytes) : Ctx :=
  let j := (s.count0.toNat >>> 3) &&& 63
  let s := s.count data.length
  if 63 < j + data.length then s.fill order data j
  else { s with buffer := patch s.buffer j data }

/-- `(w >> ((3-(i & 3)) * 8)) & 255` -/
def octet (w : Word) (i : Nat) : UInt8 :=
  UInt8.ofNat ((w >>> ((3 - (i &&& 3)) * 8)) &&& 255).toNat

def finalcount (s : Ctx) : Bytes :=
  (List.range 8).map fun i => octet (if 4 ≤ i then s.count0 else s.count1) i

/-- `while ((context->count[0] & 504) != 448)` -/
def padUp (order : ByteOrder) : Nat → Ctx → Ctx
  | 0, s => s
  | rounds + 1, s => if s.count0 &&& 504 ≠ 448 then padUp order rounds (update order s [0]) else s

/-- `state[i]` -/
def stateAt (v : Value) : Nat → Word
  | 0 => v.a
  | 1 => v.b
  | 2 => v.c
  | 3 => v.d
  | _ => v.e

/-- The context that `dnsSHA1_Final` leaves: everything wiped, and a block of zeros hashed over the
workspace. -/
def wiped (order : ByteOrder) : Ctx :=
  Ctx.transform order ⟨⟨0, 0, 0, 0, 0⟩, 0, 0, List.replicate 64 0, []⟩ (List.replicate 64 0)

def final (order : ByteOrder) (s : Ctx) : Bytes × Ctx :=
  let counted := finalcount s
  let s := update order s [0x80]
  let s := padUp order 64 s
  let s := update order s counted
  let digest := (List.range 20).map fun i => octet (stateAt s.state (i >>> 2)) i
  let s := { s with
    buffer := List.replicate 64 0
    state := ⟨0, 0, 0, 0, 0⟩
    count0 := 0
    count1 := 0 }
  (digest, s.transform order s.buffer)

/-! ## The roles of the variables -/

/-- Which variable is at a place of the circle. The roles begin at place `4 * i` in operation `i`. -/
def role (place : Nat) : Var :=
  match place % 5 with
  | 0 => .a
  | 1 => .b
  | 2 => .c
  | 3 => .d
  | _ => .e

/-- Operation `i`. -/
def operation (order : ByteOrder) (i : Nat) : Turn → Turn :=
  let op :=
    if i < 16 then R0 order else if i < 20 then R1 else if i < 40 then R2 else if i < 60 then R3 else R4
  op (role (4 * i)) (role (4 * i + 1)) (role (4 * i + 2)) (role (4 * i + 3)) (role (4 * i + 4)) i

theorem operations_eq (order : ByteOrder) :
    operations order = (List.range 80).map (operation order) := rfl

/-- The variables in their roles in front of operation `i`. -/
def seen (i : Nat) (vars : Var → Word) : Value :=
  ⟨vars (role (4 * i)), vars (role (4 * i + 1)), vars (role (4 * i + 2)), vars (role (4 * i + 3)),
    vars (role (4 * i + 4))⟩

theorem role_add_five (place : Nat) : role (place + 5) = role place := by
  unfold role
  rw [Nat.add_mod_right]

theorem role_ne {n m : Nat} (near : n < m) (close : m < n + 5) : role n ≠ role m := by
  have hn : n % 5 < 5 := Nat.mod_lt _ (by omega)
  have hm : m % 5 < 5 := Nat.mod_lt _ (by omega)
  have apart : n % 5 ≠ m % 5 := by omega
  unfold role
  generalize n % 5 = n' at *
  generalize m % 5 = m' at *
  interval_cases n' <;> interval_cases m' <;> simp at apart ⊢

/-- **An operation in its roles**: it is a round, and the roles go on by one. -/
theorem seen_R (f : Word → Word → Word → Word) (k : Word) (blk : List Word → List Word)
    (place i : Nat) (s : Turn) :
    seen (i + 1) (R f k blk place (role (4 * i)) (role (4 * i + 1)) (role (4 * i + 2)) (role (4 * i + 3))
        (role (4 * i + 4)) s).vars =
      let v := seen i s.vars
      ⟨rol v.a 5 + f v.b v.c v.d + v.e + k + (blk s.block).getD place 0, v.a, rol v.b 30, v.c,
        v.d⟩ := by
  have h01 : role (4 * i) ≠ role (4 * i + 1) := role_ne (by omega) (by omega)
  have h04 : role (4 * i) ≠ role (4 * i + 4) := role_ne (by omega) (by omega)
  have h12 : role (4 * i + 1) ≠ role (4 * i + 2) := role_ne (by omega) (by omega)
  have h13 : role (4 * i + 1) ≠ role (4 * i + 3) := role_ne (by omega) (by omega)
  have h14 : role (4 * i + 1) ≠ role (4 * i + 4) := role_ne (by omega) (by omega)
  have h24 : role (4 * i + 2) ≠ role (4 * i + 4) := role_ne (by omega) (by omega)
  have h34 : role (4 * i + 3) ≠ role (4 * i + 4) := role_ne (by omega) (by omega)
  have next : ∀ j, role (4 * (i + 1) + (j + 1)) = role (4 * i + j) := by
    intro j
    rw [← role_add_five (4 * i + j)]
    congr 1
    omega
  have first : role (4 * (i + 1)) = role (4 * i + 4) := rfl
  simp only [seen, R, next 0, next 1, next 2, next 3, first, Nat.add_zero, SecureHash.Value.mk.injEq,
    Function.update_apply]
  simp only [h01, h04, h12.symm, h13.symm, h14, h14.symm, h24, h34, if_true, if_false, and_true]
  ac_rfl

/-! ## The words -/

theorem rol_eq (value : Word) {bits : Nat} (small : bits < 32) :
    rol value bits = value.rotateLeft bits := by
  unfold rol BitVec.rotateLeft BitVec.rotateLeftAux
  rw [Nat.mod_eq_of_lt small]

theorem ch_eq (w x y : Word) : (w &&& (x ^^^ y)) ^^^ y = SecureHash.ch w x y := by
  unfold SecureHash.ch
  ext i
  simp only [BitVec.getElem_xor, BitVec.getElem_and, BitVec.getElem_not]
  cases w[i] <;> cases x[i] <;> cases y[i] <;> rfl

theorem maj_eq (w x y : Word) : ((w ||| x) &&& y) ||| (w &&& x) = SecureHash.maj w x y := by
  unfold SecureHash.maj
  ext i
  simp only [BitVec.getElem_xor, BitVec.getElem_and, BitVec.getElem_or]
  cases w[i] <;> cases x[i] <;> cases y[i] <;> rfl

theorem getLsbD_octets (p q r s : BitVec 8) (i : Nat) :
    (p ++ q ++ r ++ s : Word).getLsbD i =
      if i < 8 then s.getLsbD i else if i < 16 then r.getLsbD (i - 8)
      else if i < 24 then q.getLsbD (i - 16) else p.getLsbD (i - 24) := by
  have h : (p ++ q ++ r ++ s : Word).getLsbD i =
      if i < 8 then s.getLsbD i else (p ++ q ++ r).getLsbD (i - 8) := BitVec.getLsbD_append
  rw [h, BitVec.getLsbD_append, BitVec.getLsbD_append, Nat.sub_sub, Nat.sub_sub]
  split_ifs <;> first | rfl | omega

/-- The octets of a word the other way around. -/
theorem swap_eq (p q r s : BitVec 8) :
    ((rol (s ++ r ++ q ++ p) 24 &&& 0xff00ff00#32) ||| (rol (s ++ r ++ q ++ p) 8 &&& 0x00ff00ff#32)) =
      (p ++ q ++ r ++ s : Word) := by
  apply BitVec.eq_of_getLsbD_eq
  intro i hi
  unfold rol
  interval_cases i <;> simp [-BitVec.getLsbD_eq_getElem, getLsbD_octets]

theorem getD_set (block : List Word) {i : Nat} (inside : i < block.length) (x : Word) (j : Nat) :
    (block.set i x).getD j 0 = if i = j then x else block.getD j 0 := by
  rw [List.getD_eq_getElem?_getD, List.getD_eq_getElem?_getD, List.getElem?_set]
  by_cases same : i = j
  · rw [if_pos same, if_pos same, if_pos inside, Option.getD_some]
  · rw [if_neg same, if_neg same]

/-- `blk0` leaves the word of the block in its place, whatever the order of the octets is. -/
theorem blk0_eq (order : ByteOrder) (buffer : Bytes) {i : Nat} {block : List Word}
    (inside : i < block.length) (raw : block.getD i 0 = order.load buffer i) (j : Nat) :
    (blk0 order i block).getD j 0 = if i = j then wordAt buffer (4 * i) else block.getD j 0 := by
  cases order with
  | bigEndian =>
    split
    · next same => exact same ▸ raw
    · rfl
  | littleEndian =>
    have hswap : (rol (block.getD i 0) 24 &&& 0xff00ff00#32) |||
        (rol (block.getD i 0) 8 &&& 0x00ff00ff#32) = wordAt buffer (4 * i) := by
      rw [raw]
      exact swap_eq _ _ _ _
    simp only [blk0, hswap]
    exact getD_set block inside _ j

/-- **The words in front of operation `i`**: those of the block that are not reached yet, and of the
schedule the last sixteen. -/
structure Expanded (order : ByteOrder) (buffer : Bytes) (i : Nat) (block : List Word) : Prop where
  length : block.length = 16
  raw : ∀ j < 16, i ≤ j → block.getD j 0 = order.load buffer j
  words : ∀ t < i, i ≤ t + 16 → block.getD (t % 16) 0 = (SecureHash.schedule buffer 64).getD t 0

theorem and_fifteen (n : Nat) : n &&& 15 = n % 16 := Nat.and_two_pow_sub_one_eq_mod n 4

variable {order : ByteOrder} {buffer : Bytes} {i : Nat} {block : List Word}

theorem Expanded.first (h : Expanded order buffer i block) (first : i < 16) :
    Expanded order buffer (i + 1) (blk0 order i block) ∧
      (blk0 order i block).getD i 0 = (SecureHash.schedule buffer 64).getD i 0 := by
  have inside : i < block.length := h.length ▸ first
  have hset := blk0_eq order buffer inside (h.raw i first le_rfl)
  have hword := SecureHash.schedule_first buffer first 64
  refine ⟨⟨?_, ?_, ?_⟩, ?_⟩
  · cases order with
    | bigEndian => exact h.length
    | littleEndian => exact (List.length_set ..).trans h.length
  · intro j hj behind
    rw [hset, if_neg (by omega)]
    exact h.raw j hj (by omega)
  · intro t ht _
    rw [hset, Nat.mod_eq_of_lt (by omega)]
    split
    · next same => rw [← same, hword]
    · next other =>
      have hold := h.words t (by omega) (by omega)
      rwa [Nat.mod_eq_of_lt (by omega)] at hold
  · rw [hset, if_pos rfl, hword]

theorem Expanded.later (h : Expanded order buffer i block) (later : 16 ≤ i) (inside : i < 80) :
    Expanded order buffer (i + 1) (blk i block) ∧
      (blk i block).getD (i &&& 15) 0 = (SecureHash.schedule buffer 64).getD i 0 := by
  have hmod : i % 16 < 16 := Nat.mod_lt _ (by omega)
  have back : ∀ n m, n + m = 16 → 1 ≤ m →
      block.getD ((i + n) % 16) 0 = (SecureHash.schedule buffer 64).getD (i - m) 0 := by
    intro n m sum hm
    rw [← h.words (i - m) (by omega) (by omega)]
    congr 1
    omega
  have hset : ∀ j, (blk i block).getD j 0 =
      if i % 16 = j then (SecureHash.schedule buffer 64).getD i 0 else block.getD j 0 := by
    intro j
    have oldest : block.getD (i % 16) 0 = (SecureHash.schedule buffer 64).getD (i - 16) 0 :=
      back 0 16 rfl (by omega)
    have hnew := SecureHash.schedule_later buffer later (show i < 16 + 64 by omega)
    unfold blk
    simp only [and_fifteen]
    rw [back 13 3 rfl (by omega), back 8 8 rfl (by omega), back 2 14 rfl (by omega), oldest,
      rol_eq _ (by omega), ← hnew]
    exact getD_set block (h.length ▸ hmod) _ j
  refine ⟨⟨(List.length_set ..).trans h.length, ?_, ?_⟩, ?_⟩
  · intro j hj behind
    omega
  · intro t ht recent
    rw [hset]
    split
    · next same =>
      obtain rfl : t = i := by omega
      rfl
    · next other => exact h.words t (by omega) (by omega)
  · rw [hset, and_fifteen, if_pos rfl]

/-! ## A block -/

/-- What an operation does, beside the roles: the word of its place and a round. -/
theorem seen_operation (h : Expanded order buffer i s.block) (inside : i < 80) :
    Expanded order buffer (i + 1) (operation order i s).block ∧
      seen (i + 1) (operation order i s).vars =
        SecureHash.round (SecureHash.schedule buffer 64) (seen i s.vars) i := by
  unfold operation
  by_cases first : i < 16
  · obtain ⟨next, word⟩ := h.first first
    simp only [if_pos first, R0]
    refine ⟨next, (seen_R _ _ _ _ i s).trans ?_⟩
    simp only [SecureHash.round, SecureHash.f, SecureHash.k, if_pos (show i < 20 by omega), word,
      rol_eq _, ch_eq, Nat.reduceLT]
  · obtain ⟨next, word⟩ := h.later (by omega) inside
    simp only [if_neg first]
    by_cases second : i < 20
    · simp only [if_pos second, R1]
      refine ⟨next, (seen_R _ _ _ _ i s).trans ?_⟩
      simp only [SecureHash.round, SecureHash.f, SecureHash.k, if_pos second, word, rol_eq _, ch_eq,
        Nat.reduceLT]
    · simp only [if_neg second]
      by_cases third : i < 40
      · simp only [if_pos third, R2]
        refine ⟨next, (seen_R _ _ _ _ i s).trans ?_⟩
        simp only [SecureHash.round, SecureHash.f, SecureHash.k, if_neg second, if_pos third, word,
          rol_eq _, SecureHash.parity, Nat.reduceLT]
      · simp only [if_neg third]
        by_cases fourth : i < 60
        · simp only [if_pos fourth, R3]
          refine ⟨next, (seen_R _ _ _ _ i s).trans ?_⟩
          simp only [SecureHash.round, SecureHash.f, SecureHash.k, if_neg second, if_neg third,
            if_pos fourth, word, rol_eq _, maj_eq, Nat.reduceLT]
        · simp only [if_neg fourth, R4]
          refine ⟨next, (seen_R _ _ _ _ i s).trans ?_⟩
          simp only [SecureHash.round, SecureHash.f, SecureHash.k, if_neg second, if_neg third,
            if_neg fourth, word, rol_eq _, SecureHash.parity, Nat.reduceLT]

theorem foldl_operation {s : Turn} (start : Expanded order buffer 0 s.block) {n : Nat}
    (most : n ≤ 80) :
    Expanded order buffer n ((List.range n).foldl (fun s i => operation order i s) s).block ∧
      seen n ((List.range n).foldl (fun s i => operation order i s) s).vars =
        SecureHash.rounds (SecureHash.schedule buffer 64) (seen 0 s.vars) n := by
  induction n with
  | zero => exact ⟨start, rfl⟩
  | succ n ih =>
    obtain ⟨expanded, same⟩ := ih (by omega)
    rw [List.range_succ, List.foldl_append, List.foldl_cons, List.foldl_nil, SecureHash.rounds_succ,
      ← same]
    exact seen_operation expanded (by omega)

theorem foldl_operations (order : ByteOrder) (s : Turn) :
    (operations order).foldl (fun s op => op s) s =
      (List.range 80).foldl (fun s i => operation order i s) s := by
  rw [operations_eq, List.foldl_map]

/-- **A block is hashed as the standard says**, in either order of the octets. -/
theorem transform_eq (order : ByteOrder) (state : Value) (buffer : Bytes) :
    (transform order state buffer).1 = SecureHash.compress state buffer := by
  have start : Expanded order buffer 0 (enter order state buffer).block := by
    refine ⟨rfl, ?_, fun t ht => absurd ht (Nat.not_lt_zero t)⟩
    intro j hj _
    simp [enter, List.getD_eq_getElem?_getD, hj]
  obtain ⟨-, same⟩ := foldl_operation start le_rfl
  have added : (transform order state buffer).1 = state.add (seen 80 ((List.range 80).foldl
      (fun s i => operation order i s) (enter order state buffer)).vars) := by
    rw [← foldl_operations]
    rfl
  rw [added, same]
  rfl

/-! ## A message in pieces -/

/-- **What a context keeps of a message**: the value behind its whole blocks, the number of its bits, and
in the buffer what waits. -/
structure Ctx.Holds (s : Ctx) (m : Bytes) : Prop where
  state : s.state = chain 64 SecureHash.compress SecureHash.initial m
  size : s.buffer.length = 64
  waits : s.buffer.take (m.length % 64) = rest 64 m
  count0 : s.count0.toNat = 8 * m.length % 2 ^ 32
  count1 : s.count1.toNat = 8 * m.length / 2 ^ 32 % 2 ^ 32

theorem init_holds {s : Ctx} (size : s.buffer.length = 64) : (init s).Holds [] where
  state := rfl
  size := size
  waits := rfl
  count0 := rfl
  count1 := rfl

theorem Ctx.transform_eq (order : ByteOrder) (s : Ctx) (buffer : Bytes) :
    ∃ workspace, s.transform order buffer =
      { s with state := SecureHash.compress s.state buffer, workspace } :=
  ⟨_, by rw [← Sha1.transform_eq order]; rfl⟩

/-- The loop takes all whole blocks behind `i`, and ends where what is left is shorter. -/
theorem transformAll_eq (order : ByteOrder) (data : Bytes) (rounds i : Nat) (s : Ctx)
    (enough : (data.length - i) / 64 ≤ rounds) :
    ∃ workspace, transformAll order data rounds i s = (i + (data.length - i) / 64 * 64,
      { s with state := chain 64 SecureHash.compress s.state (data.drop i), workspace }) := by
  induction rounds generalizing i s with
  | zero =>
    have short : (data.drop i).length < 64 := by
      rw [List.length_drop]
      omega
    rw [chain_short short, Nat.le_zero.mp enough]
    exact ⟨s.workspace, rfl⟩
  | succ rounds ih =>
    unfold transformAll
    by_cases more : i + 63 < data.length
    · have hblock : ((data.drop i).take 64).length = 64 := by
        rw [List.length_take, List.length_drop]
        omega
      obtain ⟨w, hnext⟩ := s.transform_eq order ((data.drop i).take 64)
      obtain ⟨w', hrest⟩ := ih (i + 64) (s.transform order ((data.drop i).take 64)) (by omega)
      refine ⟨w', ?_⟩
      have hcount : i + 64 + (data.length - (i + 64)) / 64 * 64 = i + (data.length - i) / 64 * 64 := by
        omega
      have hsplit : (data.drop i).take 64 ++ data.drop (i + 64) = data.drop i := by
        rw [← List.drop_drop, List.take_append_drop]
      rw [if_pos more, hrest, hcount, hnext]
      simp only
      rw [← chain_cons (by omega) hblock, hsplit]
    · have short : (data.drop i).length < 64 := by
        rw [List.length_drop]
        omega
      have hnone : (data.length - i) / 64 = 0 := by omega
      rw [if_neg more, chain_short short, hnone]
      exact ⟨s.workspace, rfl⟩

/-- The number of bits, for pieces of less than 2^29 octets. -/
theorem count_toNat {s : Ctx} {n len : Nat} (count0 : s.count0.toNat = 8 * n % 2 ^ 32)
    (count1 : s.count1.toNat = 8 * n / 2 ^ 32 % 2 ^ 32) (short : len < 2 ^ 29) :
    (s.count len).count0.toNat = 8 * (n + len) % 2 ^ 32 ∧
      (s.count len).count1.toNat = 8 * (n + len) / 2 ^ 32 % 2 ^ 32 := by
  have hbits : (len <<< 3) % 2 ^ 64 = 8 * len := by
    rw [Nat.shiftLeft_eq, Nat.mod_eq_of_lt (by omega)]
    omega
  have hhigh : len >>> 29 = 0 := by
    rw [Nat.shiftRight_eq_div_pow]
    exact Nat.div_eq_of_lt short
  have hlow : (s.count0 + BitVec.ofNat 32 (8 * len)).toNat = 8 * (n + len) % 2 ^ 32 := by
    rw [BitVec.toNat_add, BitVec.toNat_ofNat, count0]
    omega
  unfold Ctx.count
  simp only [hbits, hhigh]
  refine ⟨hlow, ?_⟩
  rw [hlow]
  split
  · have hone : (1 : Word).toNat = 1 := rfl
    rw [BitVec.toNat_add, BitVec.toNat_add, BitVec.toNat_ofNat, hone, count1]
    omega
  · rw [BitVec.toNat_add, BitVec.toNat_ofNat, count1]
    omega

/-- The place in the buffer. -/
theorem place_eq {s : Ctx} {m : Bytes} (h : s.Holds m) :
    (s.count0.toNat >>> 3) &&& 63 = m.length % 64 := by
  have hmask : ∀ n, n &&& 63 = n % 64 := fun n => Nat.and_two_pow_sub_one_eq_mod n 6
  rw [hmask, h.count0, Nat.shiftRight_eq_div_pow]
  omega

/-- A piece that fills the buffer: what waited and the piece are hashed as far as they have whole
blocks. -/
theorem fill_eq (order : ByteOrder) (data : Bytes) {s : Ctx} {front back : Bytes}
    (buffer : s.buffer = front ++ back) (size : s.buffer.length = 64)
    (full : 63 < front.length + data.length) (inside : front.length < 64) :
    ∃ workspace tail, s.fill order data front.length = { s with
      state := chain 64 SecureHash.compress s.state (front ++ data)
      buffer := rest 64 (front ++ data) ++ tail
      workspace } ∧ (rest 64 (front ++ data) ++ tail).length = 64 := by
  have htaken : (data.take (64 - front.length)).length = 64 - front.length := by
    rw [List.length_take]
    omega
  have hblock : (front ++ data.take (64 - front.length)).length = 64 := by
    rw [List.length_append, htaken]
    omega
  have hwhole : front ++ data =
      front ++ data.take (64 - front.length) ++ data.drop (64 - front.length) := by
    rw [List.append_assoc, List.take_append_drop]
  have hback : back.length = 64 - front.length := by
    rw [buffer, List.length_append] at size
    omega
  have hfilled : patch s.buffer front.length (data.take (64 - front.length)) =
      front ++ data.take (64 - front.length) := by
    rw [buffer, patch_append, htaken, ← hback, List.drop_length, List.append_nil]
  have hleft : data.drop (64 - front.length + (data.length - (64 - front.length)) / 64 * 64) =
      rest 64 (front ++ data) := by
    rw [hwhole, rest_cons (by omega) hblock]
    unfold rest
    rw [List.length_drop, List.drop_drop]
  have hfits : (rest 64 (front ++ data)).length < 64 := rest_lt (by omega) _
  obtain ⟨w, hfirst⟩ := Ctx.transform_eq order
    { s with buffer := front ++ data.take (64 - front.length) } (front ++ data.take (64 - front.length))
  obtain ⟨w', hloop⟩ := transformAll_eq order data data.length (64 - front.length)
    { s with
      buffer := front ++ data.take (64 - front.length)
      state := SecureHash.compress s.state (front ++ data.take (64 - front.length))
      workspace := w } (by omega)
  refine ⟨w', (front ++ data.take (64 - front.length)).drop (rest 64 (front ++ data)).length, ?_, ?_⟩
  · unfold Ctx.fill
    simp only [hfilled, hfirst, hloop, hleft, patch_zero]
    rw [hwhole, chain_cons (by omega) hblock]
  · rw [List.length_append, List.length_drop, hblock]
    omega

/-- **A piece of the message.** -/
theorem update_holds (order : ByteOrder) (data : Bytes) {s : Ctx} {m : Bytes} (h : s.Holds m)
    (short : data.length < 2 ^ 29) : (update order s data).Holds (m ++ data) := by
  obtain ⟨hcount0, hcount1⟩ := count_toNat h.count0 h.count1 short
  rw [← List.length_append] at hcount0 hcount1
  have hj : (rest 64 m).length = m.length % 64 := rest_length m
  have hlt : m.length % 64 < 64 := Nat.mod_lt _ (by omega)
  have hwait : (rest 64 (m ++ data)).length = (m ++ data).length % 64 := rest_length _
  have hrest := rest_append (show 0 < 64 by omega) m data
  have hbuffer : (s.count data.length).buffer = rest 64 m ++ s.buffer.drop (m.length % 64) := by
    rw [← h.waits, List.take_append_drop]
    rfl
  have hstate : chain 64 SecureHash.compress SecureHash.initial (m ++ data) =
      chain 64 SecureHash.compress (s.count data.length).state (rest 64 m ++ data) := by
    rw [chain_append (by omega), ← h.state]
    rfl
  unfold update
  simp only [place_eq h]
  rw [← hj]
  split
  · next full =>
    obtain ⟨w, tail, hfill, hsize⟩ := fill_eq order data hbuffer h.size full (by omega)
    rw [hfill, ← hrest, ← hstate]
    exact
      { state := rfl
        size := by rw [hrest]; exact hsize
        waits := by rw [← hwait, List.take_left]
        count0 := hcount0
        count1 := hcount1 }
  · next more =>
    have hshort : (rest 64 m ++ data).length < 64 := by
      rw [List.length_append]
      omega
    have hfits : (rest 64 m).length + data.length ≤ s.buffer.length := by
      rw [h.size]
      omega
    rw [rest_short hshort] at hrest
    exact
      { state := by rw [hstate, chain_short hshort]
        size := (patch_length hfits).trans h.size
        waits := by
          rw [← hwait, hrest, hbuffer, patch_append, ← List.append_assoc, List.take_left]
        count0 := hcount0
        count1 := hcount1 }

/-! ## The digest -/

theorem octet_eq (w : Word) (i : Nat) :
    octet w i = UInt8.ofNat (w.toNat / 2 ^ ((3 - (i &&& 3)) * 8)) := by
  have hmask : ∀ n, n &&& 255 = n % 256 := fun n => Nat.and_two_pow_sub_one_eq_mod n 8
  have hlow : (255 : Word).toNat = 255 := rfl
  unfold octet
  rw [BitVec.toNat_and, BitVec.toNat_ushiftRight, hlow, hmask, Nat.shiftRight_eq_div_pow]
  apply UInt8.toNat_inj.mp
  rw [UInt8.toNat_ofNat', UInt8.toNat_ofNat', Nat.mod_mod]

theorem octets_eq (w : Word) : [octet w 0, octet w 1, octet w 2, octet w 3] = be32 w.toNat := by
  simp only [octet_eq]
  simp [be32]

theorem be32_mod (n : Nat) : be32 (n % 4294967296) = be32 n := by
  unfold be32
  simp only [List.cons.injEq, and_true, ← UInt8.toNat_inj, UInt8.toNat_ofNat']
  omega

theorem finalcount_eq {s : Ctx} {m : Bytes} (h : s.Holds m) : finalcount s = be64 (8 * m.length) := by
  have hwords : finalcount s =
      [octet s.count1 0, octet s.count1 1, octet s.count1 2, octet s.count1 3] ++
      [octet s.count0 0, octet s.count0 1, octet s.count0 2, octet s.count0 3] := rfl
  rw [hwords, octets_eq, octets_eq, h.count0, h.count1, be64]
  exact congrArg₂ (· ++ ·) (be32_mod _) (be32_mod _)

/-- The condition of the loop that pads: eight octets are left for the count. -/
theorem count0_iff {s : Ctx} {m : Bytes} (h : s.Holds m) :
    s.count0 &&& 504 = 448 ↔ m.length % 64 = 56 := by
  have hmask : ∀ n, n &&& 63 = n % 64 := fun n => Nat.and_two_pow_sub_one_eq_mod n 6
  have hshift : 8 * m.length % 2 ^ 32 = (m.length % 2 ^ 29) <<< 3 := by
    rw [Nat.shiftLeft_eq]
    omega
  have hand : (s.count0 &&& 504).toNat = m.length % 64 * 8 := by
    have h504 : (504 : Word).toNat = 63 <<< 3 := rfl
    rw [BitVec.toNat_and, h.count0, hshift, h504, ← Nat.shiftLeft_and_distrib, hmask, Nat.shiftLeft_eq]
    omega
  have h448 : (448 : Word).toNat = 448 := rfl
  rw [← BitVec.toNat_inj, hand, h448]
  omega

/-- The loop that pads ends in front of the count, however many turns it may make beyond 63. -/
theorem padUp_holds (order : ByteOrder) (rounds : Nat) {s : Ctx} {m : Bytes} (h : s.Holds m)
    (enough : (120 - m.length % 64) % 64 ≤ rounds) :
    (padUp order rounds s).Holds (m ++ List.replicate ((120 - m.length % 64) % 64) 0) := by
  have hlt : m.length % 64 < 64 := Nat.mod_lt _ (by omega)
  induction rounds generalizing s m with
  | zero =>
    rw [Nat.le_zero.mp enough, List.replicate_zero, List.append_nil]
    exact h
  | succ rounds ih =>
    unfold padUp
    by_cases reached : m.length % 64 = 56
    · rw [if_neg (not_not_intro ((count0_iff h).mpr reached)), reached, List.replicate_zero,
        List.append_nil]
      exact h
    · have hone : (m ++ [0]).length % 64 < 64 := Nat.mod_lt _ (by omega)
      have hlen : (m ++ [0]).length = m.length + 1 := List.length_append
      have hnext := ih (update_holds order [0] h (by simp)) (by rw [hlen]; omega) hone
      have hzeros : (120 - m.length % 64) % 64 = (120 - (m ++ [0]).length % 64) % 64 + 1 := by
        rw [hlen]
        omega
      rw [if_pos (fun h' => reached ((count0_iff h).mp h')), hzeros, List.replicate_succ]
      rw [List.append_assoc] at hnext
      exact hnext

/-- A block is hashed over what the workspace had. -/
theorem Ctx.transform_forgets (order : ByteOrder) (s : Ctx) (workspace : List Word) {buffer : Bytes} :
    s.transform order buffer = { s with workspace }.transform order buffer := by
  unfold Ctx.transform
  rfl

theorem final_of_holds (order : ByteOrder) {s : Ctx} {m : Bytes} (h : s.Holds m) :
    final order s = (SecureHash.digest m, wiped order) := by
  have hlen : (m ++ [0x80]).length = m.length + 1 := List.length_append
  have hend := padUp_holds order 64 (update_holds order [0x80] h (by simp)) (by omega)
  have hcounted : (finalcount s).length < 2 ^ 29 := by
    rw [finalcount_eq h, be64_length]
    omega
  have hdone := update_holds order (finalcount s) hend hcounted
  have hzeros : (120 - (m ++ [0x80]).length % 64) % 64 = (119 - m.length % 64) % 64 := by
    rw [hlen]
    omega
  have hpad : m ++ [0x80] ++ List.replicate ((120 - (m ++ [0x80]).length % 64) % 64) 0 ++ finalcount s =
      SecureHash.pad m := by
    rw [hzeros, finalcount_eq h, SecureHash.pad, List.append_assoc m]
    rfl
  rw [hpad] at hdone
  have hdigest : ∀ v : Value,
      (List.range 20).map (fun i => octet (stateAt v (i >>> 2)) i) = v.octets := by
    intro v
    unfold SecureHash.Value.octets
    rw [← octets_eq, ← octets_eq, ← octets_eq, ← octets_eq, ← octets_eq]
    rfl
  unfold final
  refine Prod.ext ?_ ?_
  · exact (hdigest _).trans (congrArg SecureHash.Value.octets hdone.state)
  · exact Ctx.transform_forgets order _ _

/-- **However a message is cut into pieces**, what `dnsSHA1_Final` puts out is its SHA-1, and what it
leaves in the context and in the workspace does not depend on the message. -/
theorem final_eq (order : ByteOrder) {s : Ctx} (size : s.buffer.length = 64) {pieces : List Bytes}
    (short : ∀ data ∈ pieces, data.length < 2 ^ 29) :
    final order (pieces.foldl (update order) (init s)) =
      (SecureHash.digest pieces.flatten, wiped order) := by
  have fed : ∀ (pieces : List Bytes) {s : Ctx} {m : Bytes}, s.Holds m →
      (∀ data ∈ pieces, data.length < 2 ^ 29) →
      (pieces.foldl (update order) s).Holds (m ++ pieces.flatten) := by
    intro pieces
    induction pieces with
    | nil =>
      intro s m h _
      rw [List.flatten_nil, List.append_nil]
      exact h
    | cons data pieces ih =>
      intro s m h short
      have hnext := update_holds order data h (short data List.mem_cons_self)
      have hall := ih hnext fun d hd => short d (List.mem_cons_of_mem data hd)
      rwa [List.append_assoc] at hall
  exact final_of_holds order (fed pieces (init_holds size) short)

/-- The pieces of `abc`, hashed by a machine that reads words the other way around. -/
theorem final_eq_abc :
    (final .littleEndian ([ascii "a", ascii "bc"].foldl (update .littleEndian)
      (init ⟨SecureHash.initial, 0, 0, List.replicate 64 0, []⟩))).1 =
      [0xa9, 0x99, 0x3e, 0x36, 0x47, 0x06, 0x81, 0x6a, 0xba, 0x3e, 0x25, 0x71,
        0x78, 0x50, 0xc2, 0x6c, 0x9c, 0xd0, 0xd8, 0x9d] := by
  rw [final_eq .littleEndian (List.length_replicate ..) (by decide)]
  decide +kernel

/-! ## `addNSEC3Cover` -/

/-- `while (iterations-- > 0)` -/
def digestAgain (order : ByteOrder) (salt : Bytes) : Nat → Bytes → Ctx → Bytes
  | 0, digest, _ => digest
  | iterations + 1, digest, ctx =>
    let ctx := update order (update order (init ctx) digest) salt
    let hashed := final order ctx
    digestAgain order salt iterations hashed.1 hashed.2

/-- `Compute hash value`: what `addNSEC3Cover` does with its context. -/
def coverDigest (order : ByteOrder) (ctx : Ctx) (p : HashParams) (wild : Bool) (name : Bytes) : Bytes :=
  let ctx := init ctx
  let ctx := if wild then update order ctx [1, 42] else ctx
  let hashed := final order (update order (update order ctx name) p.salt)
  digestAgain order p.salt p.iterations hashed.1 hashed.2

theorem wiped_size (order : ByteOrder) : (wiped order).buffer.length = 64 :=
  List.length_replicate ..

theorem digestAgain_eq (order : ByteOrder) {salt : Bytes} (salted : salt.length < 128) {ctx : Ctx}
    (size : ctx.buffer.length = 64) {digest : Bytes} (short : digest.length = 20) (iterations : Nat) :
    digestAgain order salt iterations digest ctx =
      (fun digest => SecureHash.digest (digest ++ salt))^[iterations] digest := by
  induction iterations generalizing digest ctx with
  | zero => rfl
  | succ iterations ih =>
    have hfed := update_holds order salt (update_holds order digest (init_holds size) (by omega))
      (by omega)
    rw [List.nil_append] at hfed
    unfold digestAgain
    simp only [final_of_holds order hfed]
    rw [ih (wiped_size order) (SecureHash.digest_length _), Function.iterate_succ_apply]

/-- **The hash of a name**: what the contexts of `addNSEC3Cover` compute from the name, the salt and the
iterations is the iterated SHA-1 that the answers are chosen by. -/
theorem coverDigest_eq (env : Env) (order : ByteOrder) {ctx : Ctx} (size : ctx.buffer.length = 64)
    {f : Found} {p : HashParams} (usable : hashParams f = some p) (wild : Bool) {name : Name}
    (valid : Valid name) :
    coverDigest order ctx p wild (wire name) =
      { env with sha1 := SecureHash.digest }.digest p wild name := by
  have hsalt := Nat.lt_succ_of_le (hashParams_salt usable)
  have hname : (wire name).length ≤ 255 := (wire_length name).trans_le valid.short
  have hstart : (if wild then update order (init ctx) [1, 42] else init ctx).Holds
      (if wild then [1, 42] else []) := by
    cases wild with
    | false => exact init_holds size
    | true => exact update_holds order [1, 42] (init_holds size) (by simp)
  have hfed := update_holds order p.salt (update_holds order (wire name) hstart (by omega)) (by omega)
  unfold coverDigest
  simp only [final_of_holds order hfed]
  rw [digestAgain_eq order hsalt (wiped_size order) (SecureHash.digest_length _)]
  rfl

/-- The parameters as the signer stores them by default. -/
def saltedFound : Found where
  type := dnsTNsec3param
  ttl := 3600
  data := List.replicate 15 0 ++ [1, 0, 0, 10, 4, 170, 187, 204, 221]
  dpos := 15

theorem coverDigest_eq_saltedFound :
    coverDigest .littleEndian ⟨SecureHash.initial, 0, 0, List.replicate 64 0, []⟩
        ⟨10, [170, 187, 204, 221]⟩ true (wire [ascii "example"]) =
      { Env.of ⟨[], fun _ h => nomatch h⟩ true with sha1 := SecureHash.digest }.digest
        ⟨10, [170, 187, 204, 221]⟩ true [ascii "example"] :=
  coverDigest_eq (Env.of ⟨[], fun _ h => nomatch h⟩ true) .littleEndian (List.length_replicate ..)
    (f := saltedFound) rfl true (by decide)

end TinyDnssec.Sha1
