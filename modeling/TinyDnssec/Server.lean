import TinyDnssec.Lookup.Doit

/-!
# The server

`server.c`, `edns0.c`, `clientloc.c` and `respond` of `tdlookup.c`: a datagram comes in, and one reply
goes out or none. The static variables that one datagram leaves to the next are a `Server`; what an
answer may depend on besides them and the datagram is a `World`. The database that `respond` has opened
serves until a second later, whatever becomes of the file; the client's location is looked up in the
file each time.

Replies with "not implemented" and to a class that is not served are made before the EDNS0 part of
the query is looked at; for them the size limit is the one an earlier query has left.

That a reply reaches the client is not said, and that the file is a whole database is taken for granted.
-/

namespace TinyDnssec

open Octets Loop

/-! ## `clientloc.c` -/

def v4mappedPrefix : Bytes := [0, 0, 0, 0, 0, 0, 0, 0, 0, 0, 255, 255]

/-- The keys `find_client_loc` tries, the longest prefix first. -/
def locationKeys (ip : Bytes) : List Bytes :=
  if ip.take 12 = v4mappedPrefix then
    [7, 6, 5, 4, 3].map fun n => (0 :: 37 :: 102 :: ip.drop 12).take n
  else
    [19, 18, 17, 16, 15, 14, 13, 12, 11, 10, 9, 8, 7, 6, 5, 4].map fun n =>
      (0 :: 37 :: 115 :: ip6FmtFlat ip).take n

/-- `cdb_find` and the data it leads to. -/
def cdbFind (db : Data.Database) (key : Bytes) : Option Bytes :=
  (db.records.find? fun record => decide (record.key = key)).map Data.CdbRecord.data

def findClientLoc (db : Data.Database) (ip : Bytes) : Bytes :=
  match (locationKeys ip).findSome? (cdbFind db) with
  | some loc => if loc.length = 2 then loc else [0, 0]
  | none => [0, 0]

/-! ## `edns0.c` -/

structure Edns0 where
  maxResponseLen : Nat
  doDnssec : Bool

/-- `check_edns0`: whether it succeeds, and what it sets. -/
def checkEdns0 (header buf : Bytes) (pos : Nat) : Bool × Edns0 :=
  let plain : Edns0 := ⟨512, false⟩
  if (header.drop 6).take 6 ≠ [0, 0, 0, 0, 0, 1] then (true, plain)
  else
    match dnsPacketCopy buf pos 3 with
    | none => (false, plain)
    | some (nametype, pos) =>
      if nametype ≠ 0 :: dnsTOpt then (true, plain)
      else
        match dnsPacketCopy buf pos 2 with
        | none => (false, plain)
        | some (optClass, pos) =>
          match dnsPacketCopy buf pos 4 with
          | none => (false, plain)
          | some (optTtl, _) =>
            if optTtl.getD 0 0 ≠ 0 ∨ optTtl.getD 1 0 ≠ 0 then (true, plain)
            else
              let doDnssec := decide (optTtl.getD 2 0 &&& 128 ≠ 0)
              let minLen := if doDnssec then 1220 else 512
              (true, ⟨max minLen (min 4000 (unbe optClass)), doDnssec⟩)

/-! ## Queries -/

/-- The beginning of a datagram that is a query. -/
structure Query where
  header : Bytes
  q : Name
  qtype : Bytes
  qclass : Bytes
  /-- the position behind the question -/
  pos : Nat

/-- `dns_packet_copy`, `dns_packet_getname` and the tests in between, up to the question. -/
def readQuery (buf : Bytes) : Option Query :=
  if buf.length ≥ 513 then none
  else
    match dnsPacketCopy buf 0 12 with
    | none => none
    | some (header, pos) =>
      if header.getD 2 0 &&& 128 ≠ 0 ∨ header.getD 4 0 ≠ 0 ∨ header.getD 5 0 ≠ 1 then none
      else
        match dnsPacketGetname buf pos with
        | none => none
        | some (q, pos) =>
          match dnsPacketCopy buf pos 2 with
          | none => none
          | some (qtype, pos) =>
            match dnsPacketCopy buf pos 2 with
            | none => none
            | some (qclass, pos) => some ⟨header, q, qtype, qclass, pos⟩

def Query.weirdClass (x : Query) : Bool :=
  decide (x.qclass ≠ dnsCIn) && decide (x.qclass ≠ dnsTAny)

def Query.notImp (x : Query) : Bool :=
  decide (x.header.getD 2 0 &&& 126 ≠ 0) || decide (x.qtype = dnsTAxfr)

/-- The query is answered before its EDNS0 part is looked at. -/
def Query.early (x : Query) : Bool := x.weirdClass || x.notImp

/-- An octet of the header is changed. -/
def setFlags (i : Nat) (f : UInt8 → UInt8) (r : Response) : Response :=
  { r with bytes := patch r.bytes i [f (r.bytes.getD i 0)] }

/-! ## `server.c` -/

/-- What the answer to a datagram may depend on: the file `data.cdb`, if it can be opened, the client's
address, the time, the random words and the hash function. -/
structure World where
  file : Option Data.Database
  ip : Bytes
  cur : Nat
  random : Nat → Nat
  sha1 : Bytes → Bytes

/-- The static variables. `stale` is what the buffer `data` has behind a record that is read into
it. -/
structure Server where
  response : Response
  maxResponseLen : Nat
  doDnssec : Bool
  stale : Bytes → Bytes
  clientloc : Bytes
  cdbValid : Nat
  /-- `fd` and `c`: the database that is open, if one is. -/
  c : Option Data.Database

/-- The server as it starts, with its static storage zeroed. -/
def Server.start (stale : Bytes → Bytes) : Server where
  response := ⟨[], [], 0, 0⟩
  maxResponseLen := 0
  doDnssec := false
  stale := stale
  clientloc := [0, 0]
  cdbValid := 0
  c := none

/-- `doit` of `tdlookup.c` is called with these settings. -/
def Server.env (s : Server) (w : World) (db : Data.Database) : Lookup.Env where
  db := db
  clientloc := s.clientloc
  cur := w.cur
  doDnssec := s.doDnssec
  maxResponseLen := s.maxResponseLen
  random := w.random
  sha1 := w.sha1
  stale := s.stale

/-- The response to a query before anything is looked up: the question, under the query's id. -/
def Query.start (x : Query) (r : Response) : Build := do
  let r ← responseQuery x.q x.qtype x.qclass r
  let r := responseId (x.header.take 2) r
  .ok (if x.qclass = dnsCIn then setFlags 2 (· ||| 4) r else r)

/-- `response[3] &= ~128; if (!(header[2] & 1)) response[2] &= ~1;` -/
def Query.setRecursion (x : Query) (r : Response) : Response :=
  let r := setFlags 3 (· &&& 127) r
  if x.header.getD 2 0 &&& 1 = 0 then setFlags 2 (· &&& 254) r else r

/-- `response[3] &= ~15; response[3] |= rcode;` -/
def setRcode (rcode : UInt8) (r : Response) : Response :=
  setFlags 3 (fun b => b &&& 240 ||| rcode) r

/-- `find_client_loc(clientloc,ip)`; where the file cannot be opened, the location stays. -/
def Server.locate (w : World) (s : Server) : Bytes :=
  match w.file with
  | some db => findClientLoc db w.ip
  | none => s.clientloc

/-- The file is opened again. -/
def Server.reopen (w : World) (s : Server) : Server :=
  match w.file with
  | some db => { s with c := some db, cdbValid := w.cur + 1 }
  | none => { s with c := none }

/-- `doit` of `tdlookup.c`. Where no database is open, every `cdb_findnext` fails. -/
def Server.answer (w : World) (s : Server) (q : Name) (qtype : Bytes) (r : Response) : Server × Bool :=
  match s.c with
  | none => ({ s with response := r }, false)
  | some db =>
    match (s.env w db).respond q qtype r with
    | .ok r => ({ s with response := r }, true)
    | .error r => ({ s with response := r }, false)

/-- `respond`: whether there is a reply. -/
def Server.respond (w : World) (s : Server) (q : Name) (qtype : Bytes) (r : Response) : Server × Bool :=
  let s := { s with clientloc := s.locate w }
  let s := if s.cdbValid < w.cur then s.reopen w else s
  s.answer w q qtype r

/-- From `check_edns0` on. -/
def Server.lookup (w : World) (s : Server) (x : Query) (buf : Bytes) (r : Response) : Server × Bool :=
  let (ok, edns0) := checkEdns0 x.header buf x.pos
  let s := { s with maxResponseLen := edns0.maxResponseLen, doDnssec := edns0.doDnssec }
  if !ok then ({ s with response := r }, false)
  else s.respond w (lowerName x.q) x.qtype r

/-- `doit`: whether there is a reply. -/
def Server.doit (w : World) (s : Server) (buf : Bytes) : Server × Bool :=
  match readQuery buf with
  | none => (s, false)
  | some x =>
    match x.start s.response with
    | .error r => ({ s with response := r }, false)
    | .ok r =>
      if x.weirdClass then ({ s with response := setRcode 1 r }, true)
      else
        let r := x.setRecursion r
        if x.notImp then ({ s with response := setRcode 4 r }, true)
        else s.lookup w x buf r

/-- One turn of the main loop: what is sent, if anything. -/
def Server.serve (w : World) (s : Server) (buf : Bytes) : Server × Option Bytes :=
  let (s, sent) := s.doit w buf
  if sent then
    let s :=
      if s.response.bytes.length > s.maxResponseLen then { s with response := responseTc s.response }
      else s
    (s, some s.response.bytes)
  else (s, none)

/-! ## The question -/

theorem readQuery_spec {buf : Bytes} {x : Query} (h : readQuery buf = some x) :
    Valid x.q ∧ x.header.length = 12 ∧ x.qtype.length = 2 ∧ x.qclass.length = 2 := by
  unfold readQuery at h
  split at h
  · cases h
  · split at h
    · cases h
    · rename_i hheader
      split at h
      · cases h
      · split at h
        · cases h
        · rename_i hname
          split at h
          · cases h
          · rename_i hqtype
            split at h
            · cases h
            · rename_i hqclass
              cases h
              exact ⟨dnsPacketGetname_valid hname, (dnsPacketCopy_eq_some.mp hheader).2.1,
                (dnsPacketCopy_eq_some.mp hqtype).2.1, (dnsPacketCopy_eq_some.mp hqclass).2.1⟩

theorem addbytes_room {buf : Bytes} {r : Response} (room : r.bytes.length + buf.length ≤ 65535) :
    addbytes buf r = .ok { r with bytes := r.bytes ++ buf } := by
  unfold addbytes
  exact if_neg (by omega)

/-- A name never takes more room than its wire form. -/
theorem addname_room {d : Name} {r : Response} (room : r.bytes.length + span d + 1 ≤ 65535) :
    ∃ r', addname d r = .ok r' ∧ r.bytes <+: r'.bytes ∧
      r'.bytes.length ≤ r.bytes.length + span d + 1 := by
  induction d generalizing r with
  | nil =>
    rw [span_nil] at room ⊢
    refine ⟨_, addbytes_room (by rw [List.length_singleton]; omega), List.prefix_append _ _, ?_⟩
    simp only [List.length_append, List.length_singleton]
    omega
  | cons l d ih =>
    rw [span_cons] at room ⊢
    unfold addname
    split
    · refine ⟨_, addbytes_room (by rw [be16_length]; omega), List.prefix_append _ _, ?_⟩
      simp only [List.length_append, be16_length]
      omega
    · have henter : (enter (l :: d) r).bytes = r.bytes := by unfold enter; split <;> rfl
      rw [addbytes_room (by rw [henter, List.length_cons]; omega)]
      obtain ⟨r', hadd, hgrown, hlen⟩ := @ih { enter (l :: d) r with
          bytes := (enter (l :: d) r).bytes ++ UInt8.ofNat l.length :: l } (by
        simp only [henter, List.length_append, List.length_cons]
        omega)
      simp only [henter, List.length_append, List.length_cons] at hgrown hlen
      refine ⟨r', ?_, (List.prefix_append _ _).trans hgrown, by omega⟩
      exact hadd

/-- What a response to a question looks like before anything is looked up. -/
structure Asked (r : Response) (question : Name) : Prop where
  idle : Idle r question {}
  short : r.bytes.length ≤ 271
  target : r.tctarget = r.bytes.length
  question : Holds (memory r.bytes) 4 [0, 1]
  whole : r.bytes.getD 2 0 &&& 2 = 0

theorem Asked.setFlags {r : Response} {question : Name} (h : Asked r question) {i : Nat} (low : i < 4)
    {f : UInt8 → UInt8} (clear : i = 2 → ∀ b, b &&& 2 = 0 → f b &&& 2 = 0) :
    Asked (setFlags i f r) question := by
  have hheader := h.idle.header
  have hfits : i + [f (r.bytes.getD i 0)].length ≤ r.bytes.length := by
    rw [List.length_singleton]
    omega
  have hlen : (TinyDnssec.setFlags i f r).bytes.length = r.bytes.length := patch_length hfits
  have hagree : ∀ j, j ≠ i → (TinyDnssec.setFlags i f r).bytes[j]? = r.bytes[j]? := by
    intro j hj
    refine getElem?_patch hfits ?_
    rw [List.length_singleton]
    omega
  refine ⟨h.idle.of_bytes hlen (fun j hj => hagree j (by omega)) rfl, hlen.le.trans h.short,
    h.target.trans hlen.symm, holds_of_agree h.question fun j hj _ => hagree j (by omega), ?_⟩
  by_cases htwo : i = 2
  · subst htwo
    have hat := holds_patch hfits 0 _ rfl
    have hat : (TinyDnssec.setFlags 2 f r).bytes[2]? = some (f (r.bytes.getD 2 0)) := hat
    rw [List.getD_eq_getElem?_getD, hat]
    exact clear rfl _ h.whole
  · rw [List.getD_eq_getElem?_getD, hagree 2 (Ne.symm htwo), ← List.getD_eq_getElem?_getD]
    exact h.whole

theorem Asked.responseId {r : Response} {question : Name} (h : Asked r question) {id : Bytes}
    (two : id.length = 2) : Asked (responseId id r) question := by
  have hheader := h.idle.header
  have hfits : 0 + id.length ≤ r.bytes.length := by omega
  have hlen : (TinyDnssec.responseId id r).bytes.length = r.bytes.length := patch_length hfits
  have hagree : ∀ j, 2 ≤ j → (TinyDnssec.responseId id r).bytes[j]? = r.bytes[j]? :=
    fun j hj => getElem?_patch hfits (by omega)
  refine ⟨h.idle.of_bytes hlen (fun j hj => hagree j (by omega)) rfl, hlen.le.trans h.short,
    h.target.trans hlen.symm, holds_of_agree h.question fun j hj _ => hagree j (by omega), ?_⟩
  rw [List.getD_eq_getElem?_getD, hagree 2 (Nat.le_refl 2), ← List.getD_eq_getElem?_getD]
  exact h.whole

theorem responseQuery_asked {q : Name} (valid : Valid q) {qtype qclass : Bytes}
    (two : qtype.length = 2) (clsTwo : qclass.length = 2) (r : Response) :
    ∃ r', responseQuery q qtype qclass r = .ok r' ∧ Asked r' q := by
  have hshort := valid.short
  obtain ⟨r₁, hname, hgrown, hlen⟩ := @addname_room q
    { r with bytes := [0, 0, 129, 128, 0, 1, 0, 0, 0, 0, 0, 0], names := [] } (by
      simp only [List.length_cons, List.length_nil]
      omega)
  simp only [List.length_cons, List.length_nil] at hlen
  have hrun : responseQuery q qtype qclass r = .ok { r₁ with
      bytes := r₁.bytes ++ qtype ++ qclass, tctarget := (r₁.bytes ++ qtype ++ qclass).length } := by
    unfold responseQuery
    refine bind_eq_ok.mpr ⟨_, addbytes_room (Nat.le_of_ble_eq_true rfl), ?_⟩
    refine bind_eq_ok.mpr ⟨_, hname, ?_⟩
    refine bind_eq_ok.mpr ⟨_, addbytes_room (by omega), ?_⟩
    refine bind_eq_ok.mpr ⟨_, addbytes_room ?_, rfl⟩
    simp only [List.length_append]
    omega
  have hidle := responseQuery_idle valid two clsTwo hrun
  have hprefix : [0, 0, 129, 128, 0, 1, 0, 0, 0, 0, 0, 0] <+: r₁.bytes ++ qtype ++ qclass :=
    hgrown.trans ((List.prefix_append _ _).trans (List.prefix_append _ _))
  refine ⟨_, hrun, hidle, ?_, rfl, ?_, ?_⟩
  · simp only [List.length_append]
    omega
  · obtain ⟨more, hmore⟩ := hprefix
    rw [holds_memory, ← hmore]
    exact ⟨[0, 0, 0, 0, 0, 0] ++ more, rfl⟩
  · obtain ⟨more, hmore⟩ := hprefix
    show (r₁.bytes ++ qtype ++ qclass).getD 2 0 &&& 2 = 0
    rw [← hmore]
    show (129 : UInt8) &&& 2 = 0
    decide

/-- **The question is always answered with a question.** -/
theorem Query.start_asked {x : Query} (valid : Valid x.q) (header : x.header.length = 12)
    (two : x.qtype.length = 2) (clsTwo : x.qclass.length = 2) (r : Response) :
    ∃ r', x.start r = .ok r' ∧ Asked r' x.q := by
  obtain ⟨r₁, hquery, hasked⟩ := responseQuery_asked valid two clsTwo r
  have hlen : (x.header.take 2).length = 2 := by
    rw [List.length_take, header]
    rfl
  have hid := hasked.responseId hlen
  refine ⟨_, bind_eq_ok.mpr ⟨r₁, hquery, rfl⟩, ?_⟩
  split
  · exact hid.setFlags (by decide) fun _ => by decide +kernel
  · exact hid

theorem Query.setRecursion_asked {x : Query} {r : Response} {question : Name}
    (h : Asked r question) : Asked (x.setRecursion r) question := by
  have hra : Asked (setFlags 3 (· &&& 127) r) question :=
    h.setFlags (by decide) fun hbad => absurd hbad (by decide)
  unfold Query.setRecursion
  simp only []
  split
  · exact hra.setFlags (by decide) fun _ => by decide +kernel
  · exact hra

theorem setRcode_asked {r : Response} {question : Name} (h : Asked r question) (rcode : UInt8) :
    Asked (setRcode rcode r) question :=
  h.setFlags (by decide) fun hbad => absurd hbad (by decide)

/-! ## The database in use -/

/-- The database in which `respond` looks, if there is one. -/
def Server.database (w : World) (s : Server) : Option Data.Database :=
  if s.cdbValid < w.cur then w.file else s.c

/-- The settings of a lookup in it. -/
def Server.settings (w : World) (s : Server) (db : Data.Database) : Lookup.Env :=
  Server.env { s with clientloc := s.locate w } w db

/-- What a lookup in a database makes of a response, and whether that is the reply. -/
def Server.looked (w : World) (s : Server) (q : Name) (qtype : Bytes) (r : Response) :
    Option Data.Database → Response × Bool
  | none => (r, false)
  | some db =>
    match (s.settings w db).respond q qtype r with
    | .ok r => (r, true)
    | .error r => (r, false)

theorem answer_eq {w : World} {s t : Server} {db : Option Data.Database} (c : t.c = db)
    (env : ∀ db, t.env w db = s.settings w db) (q : Name) (qtype : Bytes) (r : Response) :
    (t.answer w q qtype r).1.maxResponseLen = t.maxResponseLen ∧
      (t.answer w q qtype r).1.response = (s.looked w q qtype r db).1 ∧
      (t.answer w q qtype r).2 = (s.looked w q qtype r db).2 := by
  subst c
  unfold Server.answer Server.looked
  split
  · rename_i hc
    rw [hc]
    exact ⟨rfl, rfl, rfl⟩
  · rename_i db hc
    rw [hc, env db]
    cases (s.settings w db).respond q qtype r with
    | ok r => exact ⟨rfl, rfl, rfl⟩
    | error r => exact ⟨rfl, rfl, rfl⟩

/-- **What `respond` comes to**: a lookup in the database that is in use. The size limit stays. -/
theorem respond_eq (w : World) (s : Server) (q : Name) (qtype : Bytes) (r : Response) :
    (s.respond w q qtype r).1.maxResponseLen = s.maxResponseLen ∧
      (s.respond w q qtype r).1.response = (s.looked w q qtype r (s.database w)).1 ∧
      (s.respond w q qtype r).2 = (s.looked w q qtype r (s.database w)).2 := by
  have used : ∀ t : Server, t = { s with clientloc := s.locate w } →
      (if s.cdbValid < w.cur then t.reopen w else t).c = s.database w ∧
        (∀ db, (if s.cdbValid < w.cur then t.reopen w else t).env w db = s.settings w db) ∧
        (if s.cdbValid < w.cur then t.reopen w else t).maxResponseLen = s.maxResponseLen := by
    rintro t rfl
    unfold Server.database
    by_cases late : s.cdbValid < w.cur
    · rw [if_pos late, if_pos late]
      unfold Server.reopen
      cases w.file with
      | none => exact ⟨rfl, fun _ => rfl, rfl⟩
      | some db => exact ⟨rfl, fun _ => rfl, rfl⟩
    · rw [if_neg late, if_neg late]
      exact ⟨rfl, fun _ => rfl, rfl⟩
  obtain ⟨c, env, limit⟩ := used _ rfl
  obtain ⟨kept, result⟩ := answer_eq c env q qtype r
  exact ⟨kept.trans limit, result⟩

/-! ## The two ways of a datagram -/

/-- The reply to a query that is answered early. -/
def Query.earlyReply (x : Query) (r : Response) : Response :=
  if x.weirdClass then setRcode 1 r else setRcode 4 (x.setRecursion r)

theorem Query.earlyReply_asked {x : Query} {r : Response} {question : Name}
    (h : Asked r question) : Asked (x.earlyReply r) question := by
  unfold Query.earlyReply
  split
  · exact setRcode_asked h 1
  · exact setRcode_asked (setRecursion_asked h) 4

/-- What `doit` does with a datagram that is a query. -/
theorem doit_of_read {w : World} {s : Server} {buf : Bytes} {x : Query} {r : Response}
    (read : readQuery buf = some x) (start : x.start s.response = .ok r) :
    s.doit w buf = if x.early then ({ s with response := x.earlyReply r }, true)
      else s.lookup w x buf (x.setRecursion r) := by
  unfold Server.doit Query.early Query.earlyReply
  rw [read]
  simp only [start]
  cases x.weirdClass with
  | true => rfl
  | false => cases x.notImp <;> rfl

theorem doit_of_unread {w : World} {s : Server} {buf : Bytes} (read : readQuery buf = none) :
    s.doit w buf = (s, false) := by
  unfold Server.doit
  rw [read]

end TinyDnssec
