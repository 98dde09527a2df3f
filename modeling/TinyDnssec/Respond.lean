import TinyDnssec.Data.Compile
import TinyDnssec.Server

/-!
# What the small servers share

`pickdns` and `rbldns` answer out of a database of their own. They build the keys they look for in
buffers of a fixed size, and refuse what they do not serve.
-/

namespace TinyDnssec

open Octets Loop

/-- How a `respond` ends early: an octet outside of a buffer is touched, or nothing is sent. -/
inductive Halt where
  | outside
  | silent
deriving DecidableEq

/-- A buffer of `n` octets. -/
structure Buffer (n : Nat) where
  bytes : Bytes
  size : bytes.length = n
deriving DecidableEq

namespace Buffer

variable {n : Nat}

/-- `byte_copy(buf + pos,len,s)` -/
def copy (pos : Nat) (s : Bytes) (b : Buffer n) : Except Halt (Buffer n) :=
  if fits : pos + s.length ≤ n then
    .ok ⟨patch b.bytes pos s, (patch_length (by rw [b.size]; exact fits)).trans b.size⟩
  else .error .outside

/-- `case_lowerb(buf + pos,len)` -/
def lowerb (pos len : Nat) (b : Buffer n) : Except Halt (Buffer n) :=
  if pos + len ≤ n then b.copy pos (lower ((b.bytes.drop pos).take len)) else .error .outside

theorem copy_ok (b : Buffer n) (pos : Nat) (s : Bytes) (fits : pos + s.length ≤ n) :
    ∃ b', b.copy pos s = .ok b' ∧ b'.bytes = patch b.bytes pos s := by
  unfold copy
  rw [dif_pos fits]
  exact ⟨_, rfl, rfl⟩

theorem lowerb_ok (b : Buffer n) (pos len : Nat) (fits : pos + len ≤ n) :
    ∃ b', b.lowerb pos len = .ok b' ∧
      b'.bytes = patch b.bytes pos (lower ((b.bytes.drop pos).take len)) := by
  have inside : pos + (lower ((b.bytes.drop pos).take len)).length ≤ n := by
    rw [lower_length, List.length_take]
    omega
  unfold lowerb
  rw [if_pos fits]
  exact b.copy_ok pos _ inside

theorem lowerb_outside {pos len : Nat} (past : n < pos + len) (b : Buffer n) :
    b.lowerb pos len = .error .outside := by
  unfold lowerb
  rw [if_neg (by omega)]

end Buffer

/-- `cdb_find` and the data it leads to: the first record under the key. -/
def findData (records : List Data.CdbRecord) (key : Bytes) : Option Bytes :=
  (records.find? fun record => decide (record.key = key)).map Data.CdbRecord.data

/-- `response[2] &= ~4; response[3] &= ~15; response[3] |= 5;` -/
def refuse (r : Response) : Response := setRcode 5 (clearAa r)

/-- A record is begun where there is room for its owner as it is. -/
theorem rstart_room {q : Name} {type : Bytes} (two : type.length = 2) {ttl : Nat} {r : Response}
    (room : r.bytes.length + span q + 11 ≤ 65535) :
    ∃ r', rstart false q type ttl r = .ok r' ∧
      r'.bytes.length ≤ r.bytes.length + span q + 11 := by
  obtain ⟨r₁, named, -, size⟩ := addname_room (d := q) (r := r) (by omega)
  have run : rstart false q type ttl r = .ok { r₁ with
      bytes := r₁.bytes ++ type ++ dnsCIn ++ be32 ttl ++ [0, 0]
      dpos := (r₁.bytes ++ type ++ dnsCIn ++ be32 ttl ++ [0, 0]).length } := by
    have cls : dnsCIn.length = 2 := rfl
    unfold rstart
    refine bind_eq_ok.mpr ⟨r₁, named, ?_⟩
    refine bind_eq_ok.mpr ⟨_, addbytes_room (by omega), ?_⟩
    refine bind_eq_ok.mpr ⟨_, addbytes_room ?_, ?_⟩
    · simp only [List.length_append]
      omega
    refine bind_eq_ok.mpr ⟨_, addbytes_room ?_, ?_⟩
    · simp only [List.length_append, be32_length]
      omega
    refine bind_eq_ok.mpr ⟨_, addbytes_room ?_, rfl⟩
    simp only [List.length_append, be32_length, List.length_cons, List.length_nil]
    omega
  refine ⟨_, run, ?_⟩
  simp only [List.length_append, be32_length, List.length_cons, List.length_nil, two]
  change r₁.bytes.length + 2 + 2 + 4 + 2 ≤ _
  omega

end TinyDnssec
