import TinyDnssec.Lookup.Selection
import TinyDnssec.Lookup.Twin
import TinyDnssec.Server

/-!
# What a reply owes to earlier datagrams

Two servers that have served different datagrams before get the same one. A lookup in the same
database gives both the same reply, whatever else they have in their static variables:
`response_query` starts the response anew, `check_edns0` sets the size limit and the DNSSEC flag, and
`doit` frees what it may find. The database in use is a static variable, too: it is the file, unless
the file was opened within the last second. And so is the buffer that records are read into: a search
that comes to an incomplete hash at the end of a hash list goes on in what is there.

Not so the replies that are made before `check_edns0`. The main loop compares them with the limit
that is there, and at first that is 0: until some query has been looked up, every such reply has
the TC bit.

Not established is what two databases, or an incomplete hash, do to a reply: it may be the same all
the same.
-/

namespace TinyDnssec

open Octets Loop Lookup

/-! ## Reachable servers -/

/-- `check_edns0` is called for the datagram. -/
def reachesEdns0 (buf : Bytes) : Bool :=
  match readQuery buf with
  | some x => !x.early
  | none => false

/-- **A server after some datagrams**, from anyone, with any databases, times and random words in
between; `asked` tells whether `check_edns0` was called for one of them. What `data` has behind a
record changes with everything that is read. -/
inductive Server.Reach : Bool → Server → Prop
  | start (stale : Bytes → Bytes) : Server.Reach false (Server.start stale)
  | serve {asked s} (w : World) (buf : Bytes) (stale : Bytes → Bytes) : Server.Reach asked s →
      Server.Reach (asked || reachesEdns0 buf) { (s.serve w buf).1 with stale := stale }

theorem checkEdns0_limit (header buf : Bytes) (pos : Nat) :
    512 ≤ (checkEdns0 header buf pos).2.maxResponseLen ∧
      (checkEdns0 header buf pos).2.maxResponseLen ≤ 4000 := by
  unfold checkEdns0
  simp only []
  split
  · decide
  · split
    · decide
    · split
      · decide
      · split
        · decide
        · split
          · decide
          · split
            · decide
            · simp only []
              split <;> omega

theorem lookup_limit (w : World) (s : Server) (x : Query) (buf : Bytes) (r : Response) :
    (s.lookup w x buf r).1.maxResponseLen = (checkEdns0 x.header buf x.pos).2.maxResponseLen := by
  unfold Server.lookup
  simp only []
  split
  · rfl
  · exact (respond_eq w _ _ _ r).1

/-- What a datagram does to the size limit. -/
theorem serve_limit (w : World) (s : Server) (buf : Bytes) :
    (reachesEdns0 buf = true → 512 ≤ (s.serve w buf).1.maxResponseLen ∧
      (s.serve w buf).1.maxResponseLen ≤ 4000) ∧
    (reachesEdns0 buf = false → (s.serve w buf).1.maxResponseLen = s.maxResponseLen) := by
  have hserve : (s.serve w buf).1.maxResponseLen = (s.doit w buf).1.maxResponseLen := by
    unfold Server.serve
    simp only []
    split
    · split <;> rfl
    · rfl
  rw [hserve]
  unfold reachesEdns0
  cases hread : readQuery buf with
  | none =>
    rw [doit_of_unread hread]
    exact ⟨fun h => absurd h Bool.false_ne_true, fun _ => rfl⟩
  | some x =>
    obtain ⟨hvalid, hheader, htwo, hclsTwo⟩ := readQuery_spec hread
    obtain ⟨r, hstart, _⟩ := Query.start_asked hvalid hheader htwo hclsTwo s.response
    rw [doit_of_read hread hstart]
    simp only []
    cases x.early with
    | true => exact ⟨fun h => absurd h Bool.false_ne_true, fun _ => rfl⟩
    | false =>
      rw [if_neg Bool.false_ne_true, lookup_limit]
      exact ⟨fun _ => checkEdns0_limit _ _ _, fun h => absurd h.symm Bool.false_ne_true⟩

/-- **The size limit tells whether any query has been looked up.** -/
theorem Server.Reach.limit {asked : Bool} {s : Server} (h : Server.Reach asked s) :
    (asked = false → s.maxResponseLen = 0) ∧
      (asked = true → 512 ≤ s.maxResponseLen ∧ s.maxResponseLen ≤ 4000) := by
  induction h with
  | start stale => exact ⟨fun _ => rfl, fun h => absurd h Bool.false_ne_true⟩
  | @serve asked s w buf stale _ ih =>
    obtain ⟨hset, hkept⟩ := serve_limit w s buf
    cases hreach : reachesEdns0 buf with
    | true =>
      rw [Bool.or_true]
      exact ⟨fun h => absurd h.symm Bool.false_ne_true, fun _ => hset hreach⟩
    | false =>
      rw [Bool.or_false]
      refine ⟨fun h => (hkept hreach).trans (ih.1 h), fun h => ?_⟩
      show 512 ≤ (Server.serve w s buf).1.maxResponseLen ∧
        (Server.serve w s buf).1.maxResponseLen ≤ 4000
      rw [hkept hreach]
      exact ih.2 h

/-! ## What is sent -/

/-- The main loop's last word on a response. -/
def send (maxResponseLen : Nat) (r : Response) : Bytes :=
  (if r.bytes.length > maxResponseLen then responseTc r else r).bytes

theorem serve_snd (w : World) (s : Server) (buf : Bytes) :
    (s.serve w buf).2 = if (s.doit w buf).2 then
      some (send (s.doit w buf).1.maxResponseLen (s.doit w buf).1.response) else none := by
  unfold Server.serve send
  simp only []
  split
  · split <;> rfl
  · rfl

theorem setFlags_twin {t : Nat × Nat} {r r' : Response} (h : Twin t r r') (i : Nat)
    (f : UInt8 → UInt8) : Twin t (setFlags i f r) (setFlags i f r') :=
  h.patch i fun bytes => [f (bytes.getD i 0)]

/-- Twins with one place for a cut. -/
def Alike (r r' : Response) : Prop := ∃ n, Twin (n, n) r r'

theorem Alike.setFlags {r r' : Response} (h : Alike r r') (i : Nat) (f : UInt8 → UInt8) :
    Alike (setFlags i f r) (TinyDnssec.setFlags i f r') := by
  obtain ⟨n, h⟩ := h
  exact ⟨n, setFlags_twin h i f⟩

/-- The server behind `check_edns0`. -/
def Server.told (s : Server) (edns0 : Edns0) : Server :=
  { s with maxResponseLen := edns0.maxResponseLen, doDnssec := edns0.doDnssec }

theorem or_two_ne_zero : ∀ b : UInt8, (b ||| 2) &&& 2 ≠ 0 := by decide +kernel

/-- A client of the zone `z`. -/
def wildcardWorld : World :=
  ⟨some wildcardZone, [10, 0, 0, 1], 4611686018427387914, fun _ => 0, fun _ => []⟩

/-- A server that has served nothing. -/
def idleServer : Server := .start fun _ => []

/-- A query for the address of `x.z`; `opcode` is the third octet of its header. -/
def datagram (opcode : UInt8) : Bytes :=
  [0, 7, opcode, 0, 0, 1, 0, 0, 0, 0, 0, 0, 1, 120, 1, 122, 0, 0, 1, 0, 1]

/-- A query for the address of `x.z` with the DO bit. -/
def dnssecDatagram : Bytes :=
  [0, 7, 0, 0, 0, 1, 0, 0, 0, 0, 0, 1, 1, 120, 1, 122, 0, 0, 1, 0, 1, 0, 0, 41, 16, 0, 0, 0, 128, 0, 0, 0]

/-- A signed zone `z`, with these hashed names. -/
def signedRecords (hashed : List Data.CdbRecord) : List Data.CdbRecord :=
  let rr (type rdata : Bytes) := Data.rr [[122]] type 60 (Data.ttdparse []) [0, 0] rdata
  [rr dnsTSoa ([0, 0] ++ List.replicate 20 0), rr dnsTNs [0], rr dnsTDnskey [1],
    rr dnsTNsec3param [1, 0, 0, 0, 1, 170],
    rr dnsTRrsig (dnsTSoa ++ List.replicate 16 0 ++ [1, 122, 0, 9]),
    rr dnsTHashref (wire [[104], [122]])] ++ hashed

end TinyDnssec
