import TinyDnssec.Base.Memory

/-!
# The cache of dnscache

A hash table whose entries stand in the order of their insertion in one buffer, used as a ring. An
entry is found through the list of its bucket, which is linked by exclusive or; the oldest entry is
thrown away for room, in either half of the ring, and taken off the end of its list.

The functions of `cache.c`. The buffer is allocated (`x` is not null); a `uint32` is a number below
2^32, and where the source adds or subtracts two of them the sum is cut to 32 bits. `siphash` is the
hash under the random key that `cache_init` chose: nothing here depends on which it is. `cur` is the
label that `tai_now` gives for the second of the call, and the difference of two labels is a
`double` in between, exact as far as the test against a week goes.
-/

namespace TinyDnssec.Dnscache

open Octets

/-- The static variables. -/
structure Cache where
  x : Bytes
  size : Nat
  hsize : Nat
  writer : Nat
  oldest : Nat
  unused : Nat
  motion : Nat

/-- Why there is no result: `cache_impossible`, or the rounds the model allows a loop are over. -/
inductive Halt where
  | impossible
  | rounds
deriving DecidableEq

def maxKeyLen : Nat := 1000

def maxDataLen : Nat := 1000000

/-- A week, in seconds. -/
def maxTtl : Nat := 604800

/-- Addition of `uint32` numbers. -/
def add32 (a b : Nat) : Nat := (a + b) % 4294967296

/-- Subtraction of `uint32` numbers. -/
def sub32 (a b : Nat) : Nat := if b ≤ a then a - b else a + (4294967296 - b)

namespace Cache

variable (c : Cache)

def set4 (pos u : Nat) : Except Halt Cache :=
  if pos > sub32 c.size 4 then .error .impossible
  else .ok { c with x := patch c.x pos (le32 u) }

def get4 (pos : Nat) : Except Halt Nat :=
  if pos > sub32 c.size 4 then .error .impossible
  else .ok (unle ((c.x.drop pos).take 4))

end Cache

/-- The position of the head link of a key. -/
def hash (siphash : Bytes → UInt64) (hsize : Nat) (key : Bytes) : Nat :=
  (siphash key).toNat % 4294967296 &&& sub32 hsize 4

/-! ## `cache_get` -/

/-- An entry with the right key: its data and its time to live, or nothing when it has expired. -/
def Cache.found (c : Cache) (keylen cur pos : Nat) : Except Halt (Option (Bytes × Nat)) := do
  let expire := unbe ((c.x.drop (pos + 12)).take 8)
  if expire < cur then .ok none
  else
    let u ← c.get4 (add32 pos 8)
    if u > sub32 (sub32 (sub32 c.size pos) 20) keylen then .error .impossible
    else .ok (some ((c.x.drop (pos + 20 + keylen)).take u, min (expire - cur) maxTtl))

/-- Does the entry at a position have the key? -/
def Cache.keyed (c : Cache) (key : Bytes) (pos : Nat) : Except Halt Bool := do
  let keylen ← c.get4 (add32 pos 4)
  if keylen ≠ key.length then .ok false
  else if add32 (add32 pos 20) key.length > c.size then .error .impossible
  else .ok (decide ((c.x.drop (pos + 20)).take key.length = key))

/-- The walk along a list, as far as the links a lookup may still follow. -/
def Cache.walk (c : Cache) (key : Bytes) (cur : Nat) :
    Nat → Nat → Nat → Except Halt (Option (Bytes × Nat))
  | 0, _, _ => .ok none
  | links + 1, prevpos, pos => do
    if pos = 0 then .ok none
    else
      let keyed ← c.keyed key pos
      if keyed then c.found key.length cur pos
      else
        let link ← c.get4 pos
        c.walk key cur links pos (prevpos ^^^ link)

/-- The data and the time to live, if the cache has them. -/
def cacheGet (siphash : Bytes → UInt64) (cur : Nat) (key : Bytes) (c : Cache) :
    Except Halt (Option (Bytes × Nat)) :=
  if key.length > maxKeyLen then .ok none
  else do
    let prevpos := hash siphash c.hsize key
    let pos ← c.get4 prevpos
    c.walk key cur 101 prevpos pos

/-! ## `cache_set` -/

/-- An empty older half takes over the newer one; nothing when that is empty too. -/
def Cache.turn (c : Cache) : Option Cache :=
  if c.oldest = c.unused then
    if c.writer ≤ c.hsize then none
    else some { c with unused := c.writer, oldest := c.hsize, writer := c.hsize }
  else some c

/-- The oldest entry is taken off its list and given up. -/
def Cache.evict (c : Cache) : Except Halt Cache := do
  let pos ← c.get4 c.oldest
  let link ← c.get4 pos
  let c ← c.set4 pos (link ^^^ c.oldest)
  let keylen ← c.get4 (add32 c.oldest 4)
  let datalen ← c.get4 (add32 c.oldest 8)
  let oldest := add32 c.oldest (add32 (add32 keylen datalen) 20)
  if oldest > c.unused then .error .impossible
  else if oldest = c.unused then .ok { c with unused := c.size, oldest := c.size }
  else .ok { c with oldest := oldest }

/-- Entries are given up until there is room; `false` when the cache is empty and there is none. -/
def Cache.makeRoom (entrylen : Nat) : Nat → Cache → Except Halt (Bool × Cache)
  | 0, _ => .error .rounds
  | rounds + 1, c =>
    if add32 c.writer entrylen > c.oldest then
      match c.turn with
      | none => .ok (false, c)
      | some c => do
        let c ← c.evict
        makeRoom entrylen rounds c
    else .ok (true, c)

/-- The first entry of a list learns that it has one before it. -/
def Cache.relink (c : Cache) (keyhash pos : Nat) : Except Halt Cache :=
  if pos = 0 then .ok c
  else do
    let link ← c.get4 pos
    c.set4 pos (link ^^^ keyhash ^^^ c.writer)

/-- A new entry in the free space. -/
def Cache.store (c : Cache) (keyhash : Nat) (key data : Bytes) (expire : Nat) :
    Except Halt Cache := do
  let pos ← c.get4 keyhash
  let c ← c.relink keyhash pos
  let c ← c.set4 c.writer (pos ^^^ keyhash)
  let c ← c.set4 (add32 c.writer 4) key.length
  let c ← c.set4 (add32 c.writer 8) data.length
  let x := patch c.x (c.writer + 12) (be64 expire)
  let x := patch x (c.writer + 20) key
  let x := patch x (c.writer + 20 + key.length) data
  let c ← { c with x := x }.set4 keyhash c.writer
  .ok { c with
    writer := add32 c.writer (key.length + data.length + 20)
    motion := (c.motion + (key.length + data.length + 20)) % 18446744073709551616 }

def cacheSet (siphash : Bytes → UInt64) (cur : Nat) (key data : Bytes) (ttl : Nat) (c : Cache) :
    Except Halt Cache :=
  if key.length > maxKeyLen then .ok c
  else if data.length > maxDataLen then .ok c
  else if ttl = 0 then .ok c
  else do
    let ttl := min ttl maxTtl
    -- every round gives up an entry, so the octets of the buffer are rounds enough
    let (room, c) ← c.makeRoom (key.length + data.length + 20) (c.size + 1)
    if !room then .ok c
    else
      c.store (hash siphash c.hsize key) key data ((cur + ttl) % 18446744073709551616)

/-! ## `cache_init` -/

/-- Twice and twice again, as long as it is at most the bound. -/
def doubled (bound : Nat) : Nat → Nat → Nat
  | 0, h => h
  | rounds + 1, h => if h ≤ bound then doubled bound rounds (h * 2) else h

def cacheInit (cachesize : Nat) : Cache :=
  let size := max (min cachesize 1000000000) 100
  let hsize := doubled (size / 32) 32 4
  { x := List.replicate size 0
    size := size
    hsize := hsize
    writer := hsize
    oldest := size
    unused := size
    motion := 0 }

/-! ## Histories -/

/-- A call, with the label of its second. -/
inductive Call where
  | set (cur : UInt64) (key data : Bytes) (ttl : UInt32)
  | get (cur : UInt64) (key : Bytes)

/-- The time of a call. -/
def Call.cur : Call → UInt64
  | .set cur _ _ _ => cur
  | .get cur _ => cur

/-- A lookup leaves the cache as it is. -/
def Call.run (siphash : Bytes → UInt64) (c : Cache) : Call → Except Halt Cache
  | .set cur key data ttl => cacheSet siphash cur.toNat key data ttl.toNat c
  | .get cur key => do
    let _ ← cacheGet siphash cur.toNat key c
    .ok c

def runCalls (siphash : Bytes → UInt64) : List Call → Cache → Except Halt Cache
  | [], c => .ok c
  | call :: calls, c => do
    let c ← call.run siphash c
    runCalls siphash calls c

end TinyDnssec.Dnscache
