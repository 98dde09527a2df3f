import TinyDnssec.Data.Compile

/-!
# The lines of `tinydns-sign`'s own records

Every record that `tinydns-sign` makes is printed by `makeGenericRecord` as a generic line of the
data file, with all the octets of its data that are not plain text in octal. The line is for
`tinydns-data`, which stores the data as it was.

The lines that `tinydns-sign` copies are not among these.
-/

namespace TinyDnssec.Sign

open Octets Data

/-- `/[0-9a-zA-Z +*.,\/=<>\@\$-]/` -/
def plainChar (char : UInt8) : Bool :=
  isDigit char || (decide (97 ≤ char) && decide (char ≤ 122)) ||
    (decide (65 ≤ char) && decide (char ≤ 90)) || (ascii " +*.,/=<>@$-").contains char

/-- The line with its newline; `ttl`, `ts` and `lo` are printed as they stand in the line the record
is made for. -/
def makeGenericRecord (dom : Bytes) (type : Nat) (rdata ttl ts lo : Bytes) : Bytes :=
  ascii ":" ++ dom ++ ascii ":" ++ decimal type ++ ascii ":" ++ escape plainChar rdata ++
    ascii ":" ++ ttl ++ ascii ":" ++ ts ++ ascii ":" ++ lo ++ ascii "\n"

theorem clean_plainChar (rdata : Bytes) : Clean (escape plainChar rdata) :=
  clean_escape (by decide) (by decide) rdata

section

variable {dom ttl ts lo : Bytes} {type : Nat}

theorem makeGenericRecord_eq (rdata : Bytes) :
    makeGenericRecord dom type rdata ttl ts lo =
      58 :: join 58 [dom, decimal type, escape plainChar rdata, ttl, ts] ++ 58 :: lo ++ [10] := by
  simp only [makeGenericRecord, join, show ascii ":" = [58] from rfl, show ascii "\n" = [10] from rfl,
    List.append_assoc, List.cons_append, List.nil_append]

/-- **The line is cut into the fields it was printed from.** Only blanks at its very end are lost. -/
theorem compileFile_generic (env : Env) (cleanDom : Clean dom) (cleanTtl : Clean ttl)
    (cleanTs : Clean ts) (cleanLo : Clean lo) (rdata : Bytes) :
    compileFile env (makeGenericRecord dom type rdata ttl ts lo) =
      compileKind env 58 fun i =>
        [dom, decimal type, escape plainChar rdata, ttl, ts, trimLine lo].getD i [] := by
  have kept : Clean (trimLine lo) := by
    intro b hb
    have mem := (List.dropWhile_suffix isBlank).subset (List.mem_reverse.mp hb)
    exact cleanLo b (List.mem_reverse.mp mem)
  have clean : ∀ f ∈ [dom, decimal type, escape plainChar rdata, ttl, ts, trimLine lo],
      Clean f := by
    simp [cleanDom, cleanTtl, cleanTs, kept, clean_decimal, clean_plainChar]
  have joined (last : Bytes) : join 58 [dom, decimal type, escape plainChar rdata, ttl, ts, last] =
      join 58 [dom, decimal type, escape plainChar rdata, ttl, ts] ++ 58 :: last :=
    @join_concat 58 [dom, decimal type, escape plainChar rdata, ttl, ts] (List.cons_ne_nil _ _) last
  rw [makeGenericRecord_eq, compileFile_line]
  · unfold compileLine
    rw [List.cons_append, trimLine_cons (by decide), trimLine_behind (by decide), ← joined]
    refine congrArg (compileKind env 58) (funext fun i => ?_)
    rw [fields, split_join (List.cons_ne_nil _ _) fun f hf hmem => (clean f hf 58 hmem).1 rfl]
  · intro hmem
    rcases List.mem_append.mp hmem with hmem | hmem
    · rcases List.mem_cons.mp hmem with heq | hmem
      · cases heq
      · rcases mem_join hmem with heq | ⟨f, hf, hmem⟩
        · cases heq
        · have front := List.mem_append_left [trimLine lo] hf
          exact (clean f front 10 hmem).2 rfl
    · rcases List.mem_cons.mp hmem with heq | hmem
      · cases heq
      · exact (cleanLo 10 hmem).2 rfl

/-- **What `makeGenericRecord` prints, `tinydns-data` reads**: the third field decodes to the data
octet for octet, and the data is what is stored behind the header of the record. -/
theorem generic_round_trip (env : Env) (cleanDom : Clean dom) (cleanTtl : Clean ttl)
    (cleanTs : Clean ts) (cleanLo : Clean lo) (small : type < 65536) (rdata : Bytes) :
    ∃ f : Nat → Bytes,
      compileFile env (makeGenericRecord dom type rdata ttl ts lo) = compileKind env 58 f ∧
      f 0 = dom ∧ scanUlong (f 1) = type ∧ txtparse (f 2) = rdata ∧
      ∀ d1, dnsDomainFromdot dom = some d1 → prohibited.lookup (be16 type) = none →
        compileFile env (makeGenericRecord dom type rdata ttl ts lo) =
          .ok [rrFinish d1 (decide (type ≠ 65282))
            (rrStart (be16 type) (scanUlongOr ttlPositive ttl) (ttdparse ts)
              (locparse (trimLine lo)) ++ rdata)] := by
  have number : scanUlong (decimal type) = type := scanUlong_decimal (by omega)
  have data : txtparse (escape plainChar rdata) = rdata := txtparse_escape (by decide) rdata
  have read := @compileFile_generic dom ttl ts lo type env cleanDom cleanTtl cleanTs cleanLo rdata
  refine ⟨_, read, rfl, number, data, fun d1 name allowed => ?_⟩
  rw [read, show compileKind env 58 = compileGeneric from rfl]
  simp only [compileGeneric, List.getD_cons_zero, List.getD_cons_succ, fromdot, name, number, data,
    allowed, bind, Except.bind]

end

/-- A digit behind an escape, a colon, a newline, and a blank at the end. -/
theorem generic_round_trip_unusual :
    compileFile ⟨0, 0⟩ (makeGenericRecord [97] 46 [92, 0, 49, 58, 10, 55, 32] [] [] []) =
      .ok [rrFinish [[97]] true
        (rrStart (be16 46) 86400 (ttdparse []) [0, 0] ++ [92, 0, 49, 58, 10, 55, 32])] := by
  have owner : Clean [97] := .cons (by decide) .nil
  obtain ⟨_, _, _, _, _, stored⟩ :=
    @generic_round_trip [97] [] [] [] 46 ⟨0, 0⟩ owner .nil .nil .nil (by decide)
      [92, 0, 49, 58, 10, 55, 32]
  exact stored [[97]] (by decide) (by decide)

end TinyDnssec.Sign
