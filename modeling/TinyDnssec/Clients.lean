import Mathlib.Control.Monad.Writer
import TinyDnssec.Base.Run
import TinyDnssec.Dns
import TinyDnssec.Packet

/-!
# dnscache: the clients and the counters

The main loop of `dnscache.c` keeps its clients in two tables, 200 UDP slots and 20 TCP slots, and
next to them the counters `uactive`, `tactive` and `soaactive`. `Clients.step` is what the loop does
on one event: a query that comes to an end, traffic on a TCP connection, a datagram, a connection.
What the network and `doit` of `query.c` come to is part of the event. The functions for a TCP
connection also keep the calls they make of `read`, `alloc`, `byte_copy` and `packetquery`, with what
they pass.

A slot keeps the type of its last query in its query structure, and `u_drop` and `u_respond` go by
that type. `query_start` turns an AXFR query away before it has written the type, and so it does
when there is no memory for the name; the counter is then adjusted by the query before. The counters
and the tables agree exactly in the runs where that makes no difference (`books_iff`).
-/

namespace TinyDnssec.Dnscache

open Octets

/-- What a call of `doit` comes to: `-1`, `0`, or `1` with a response. -/
inductive Outcome where
  | failed
  | pending
  | answered (response : Bytes)
deriving DecidableEq

structure UdpClient where
  /-- `q.type` -/
  type : Bytes
  start : Nat
  /-- The query number, or 0 in a free slot. -/
  active : Nat

structure TcpClient where
  type : Bytes
  start : Nat
  timeout : Nat
  active : Nat
  state : Int
  /-- What has been filled of the allocated buffer. -/
  buf : Option Bytes
  len : Nat
  pos : Nat

def maxsoa : Int := 20

structure Clients where
  u : Fin 200 → UdpClient
  t : Fin 20 → TcpClient
  uactive : Int
  tactive : Int
  soaactive : Int
  numqueries : Nat

/-- The program as it starts, with its static storage zeroed. -/
def Clients.idle : Clients where
  u _ := ⟨[0, 0], 0, 0⟩
  t _ := ⟨[0, 0], 0, 0, 0, 0, none, 0, 0⟩
  uactive := 0
  tactive := 0
  soaactive := 0
  numqueries := 0

def Clients.setU (c : Clients) (j : Fin 200) (x : UdpClient) : Clients :=
  { c with u := Function.update c.u j x }

def Clients.setT (c : Clients) (j : Fin 20) (x : TcpClient) : Clients :=
  { c with t := Function.update c.t j x }

/-- What `packetquery` reads. -/
structure Question where
  q : Name
  qtype : Bytes
  qclass : Bytes
  id : Bytes

def packetquery (buf : Bytes) : Option Question :=
  match dnsPacketCopy buf 0 12 with
  | none => none
  | some (header, pos) =>
    if header.getD 2 0 &&& 128 ≠ 0 then none
    else if header.getD 2 0 &&& 1 = 0 then none
    else if header.getD 2 0 &&& 120 ≠ 0 then none
    else if header.getD 2 0 &&& 2 ≠ 0 then none
    else if (header.drop 4).take 2 ≠ [0, 1] then none
    else
      match dnsPacketGetname buf pos with
      | none => none
      | some (q, pos) =>
        match dnsPacketCopy buf pos 2 with
        | none => none
        | some (qtype, pos) =>
          match dnsPacketCopy buf pos 2 with
          | none => none
          | some (qclass, _) =>
            if qclass ≠ dnsCIn ∧ qclass ≠ [0, 255] then none
            else some ⟨q, qtype, qclass, header.take 2⟩

/-- What is up to the machine when `query_start` is called: whether there is memory for the name,
and what the first call of `doit` comes to. -/
structure Start where
  copied : Bool
  outcome : Outcome

/-- `query_start` on a structure that holds `stored`: the type it holds then, and the result. -/
def queryStart (stored type : Bytes) (start : Start) : Bytes × Outcome :=
  if type = dnsTAxfr then (stored, .failed)
  else if ¬ start.copied then (stored, .failed)
  else (type, start.outcome)

/-! ## UDP -/

/-- What `u_drop` and `u_respond` do to the slot and the counters. -/
def Clients.uEnd (c : Clients) (j : Fin 200) : Clients :=
  if (c.u j).active = 0 then c
  else
    { c.setU j { c.u j with active := 0 } with
      uactive := c.uactive - 1
      soaactive := if (c.u j).type = dnsTSoa then c.soaactive - 1 else c.soaactive }

def Clients.uDrop (c : Clients) (j : Fin 200) : Clients := c.uEnd j

/-- The response goes out; the books change as in `u_drop`. -/
def Clients.uRespond (c : Clients) (j : Fin 200) (_response : Bytes) : Clients := c.uEnd j

/-- A slot with the least start time: the first one of them. -/
def oldest {n : Nat} (start : Fin (n + 1) → Nat) : Fin (n + 1) :=
  (List.finRange (n + 1)).foldl (fun j i => if start i < start j then i else j) 0

/-- The slot for a new query: the first free one, or the oldest one, whose query is dropped. -/
def Clients.uSlot (c : Clients) : Fin 200 × Clients :=
  match (List.finRange 200).find? fun j => (c.u j).active = 0 with
  | some j => (j, c)
  | none => (oldest fun j => (c.u j).start, c.uDrop (oldest fun j => (c.u j).start))

/-- A datagram: its octets, the sender's port, and whether `okclient` knows the sender. -/
structure Datagram where
  buf : Bytes
  port : Nat
  ok : Bool

/-- What there is when `u_new` is called: the time, and the datagram if one is received. -/
structure Arrival where
  now : Nat
  received : Option Datagram
  start : Start

/-- The question of a datagram that `u_new` goes on with. -/
def Arrival.question (a : Arrival) : Option Question :=
  match a.received with
  | none => none
  | some d =>
    if d.buf.length ≥ 65535 then none
    else if d.port < 1024 ∧ d.port ≠ 53 then none
    else if ¬ d.ok then none
    else packetquery d.buf

/-- `++numqueries`, a 64-bit number. -/
def Clients.nextQuery (c : Clients) : Nat := (c.numqueries + 1) % 18446744073709551616

/-- `u_new` with a question for slot `j`. -/
def Clients.uQuery (c : Clients) (j : Fin 200) (q : Question) (start : Start) : Clients :=
  let c := { c with numqueries := c.nextQuery }
  let c := { c.setU j { c.u j with active := c.numqueries } with uactive := c.uactive + 1 }
  if q.qtype = dnsTSoa ∧ c.soaactive ≥ maxsoa then
    { c.setU j { c.u j with active := 0 } with uactive := c.uactive - 1 }
  else
    let c := { c with soaactive := if q.qtype = dnsTSoa then c.soaactive + 1 else c.soaactive }
    let (type, r) := queryStart (c.u j).type q.qtype start
    let c := c.setU j { c.u j with type := type }
    match r with
    | .failed => c.uDrop j
    | .answered response => c.uRespond j response
    | .pending => c

def Clients.uNew (c : Clients) (a : Arrival) : Clients :=
  let (j, c) := c.uSlot
  let c := c.setU j { c.u j with start := a.now }
  match a.question with
  | none => c
  | some q => c.uQuery j q a.start

/-! ## TCP -/

def Clients.tFree (c : Clients) (j : Fin 20) : Clients := c.setT j { c.t j with buf := none }

def Clients.tTimeout (c : Clients) (j : Fin 20) (now : Nat) : Clients :=
  if (c.t j).active = 0 then c else c.setT j { c.t j with timeout := now + 10 }

def Clients.tClose (c : Clients) (j : Fin 20) : Clients :=
  if (c.t j).active = 0 then c
  else
    let c := c.tFree j
    { c.setT j { c.t j with active := 0 } with tactive := c.tactive - 1 }

def Clients.tDrop (c : Clients) (j : Fin 20) : Clients := c.tClose j

/-- A call made for a TCP connection, and what it is given. -/
inductive TcpCall where
  /-- `read`: how many octets it may read, and the octets it reads. -/
  | read (toread : Nat) (chunk : Bytes)
  | alloc (len : Nat)
  /-- `byte_copy` into the buffer: the place, and the octets. -/
  | copy (pos : Nat) (s : Bytes)
  | packetquery (buf : Bytes) (len : Nat)

/-- What is computed, and the calls that are made for it. -/
abbrev TcpCalls := Writer (List TcpCall)

/-- `chunk` is what the call comes to: octets, none of them at the end of the stream, or a failure. -/
def TcpCalls.read (toread : Nat) (chunk : Option Bytes) : TcpCalls (Option Bytes) := do
  tell [.read toread (chunk.getD [])]
  return chunk

/-- `room` says whether there is memory. Nothing of the new buffer has been filled. -/
def TcpCalls.alloc (len : Nat) (room : Bool) : TcpCalls (Option Bytes) := do
  tell [.alloc len]
  return if room then some [] else none

def TcpCalls.byteCopy (buf : Bytes) (pos : Nat) (s : Bytes) : TcpCalls Bytes := do
  tell [.copy pos s]
  return buf.take pos ++ s

def TcpCalls.packetquery (buf : Bytes) (len : Nat) : TcpCalls (Option Question) := do
  tell [.packetquery buf len]
  return Dnscache.packetquery (buf.take len)

/-- `room` says whether there is memory for the response. -/
def Clients.tRespond (c : Clients) (j : Fin 20) (response : Bytes) (room : Bool) :
    TcpCalls Clients := do
  if (c.t j).active = 0 then return c
  else
    let c := c.setT j { c.t j with len := response.length + 2 }
    let c := c.tFree j
    match ← TcpCalls.alloc (response.length + 2) room with
    | none => return c.tClose j
    | some buf =>
      let buf ← TcpCalls.byteCopy buf 0 (be16 response.length)
      let buf ← TcpCalls.byteCopy buf 2 response
      return c.setT j { c.t j with buf := some buf, pos := 0, state := -1 }

/-- What there is when the loop comes to a TCP slot: the time, whether `iopause` reports the
connection, whether it is late, and what the calls made for it come to. -/
structure TcpIo where
  now : Nat
  reported : Bool
  late : Bool
  /-- `query_get` -/
  got : Outcome
  /-- `write` -/
  written : Int
  /-- `read`, or none where it fails -/
  chunk : Option Bytes
  /-- `alloc` of the query's buffer -/
  room : Bool
  start : Start
  /-- `alloc` of the response's buffer -/
  replyRoom : Bool

/-- `t_rw` with the second octet of the length. -/
def Clients.tLength (c : Clients) (j : Fin 20) (ch : UInt8) (room : Bool) : TcpCalls Clients := do
  let c := c.setT j { c.t j with len := (c.t j).len + ch.toNat }
  if (c.t j).len < 12 then return c.tClose j
  else
    match ← TcpCalls.alloc (c.t j).len room with
    | none => return c.tClose j
    | some buf => return c.setT j { c.t j with buf := some buf, pos := 0, state := 3 }

/-- `t_rw` with the query read to its end. -/
def Clients.tQuery (c : Clients) (j : Fin 20) (q : Question) (io : TcpIo) : TcpCalls Clients := do
  let c := { c with numqueries := c.nextQuery }
  let c := c.setT j { c.t j with active := c.numqueries }
  let (type, r) := queryStart (c.t j).type q.qtype io.start
  let c := c.setT j { c.t j with type := type }
  match r with
  | .failed => return c.tDrop j
  | .answered response => c.tRespond j response io.replyRoom
  | .pending =>
    let c := c.tFree j
    return c.setT j { c.t j with state := 0 }

/-- `t_rw` with octets of the query. -/
def Clients.tFill (c : Clients) (j : Fin 20) (chunk : Bytes) (io : TcpIo) : TcpCalls Clients := do
  let buf ← TcpCalls.byteCopy ((c.t j).buf.getD []) (c.t j).pos chunk
  let c := c.setT j { c.t j with buf := some buf, pos := (c.t j).pos + chunk.length }
  if (c.t j).pos < (c.t j).len then return c
  else
    match ← TcpCalls.packetquery buf (c.t j).len with
    | none => return c.tClose j
    | some q => c.tQuery j q io

/-- How many octets `t_rw` asks `read` for. -/
def TcpClient.toread (x : TcpClient) : Nat :=
  if x.state = 1 then 2 else if x.state = 2 then 1 else x.len - x.pos

def Clients.tRw (c : Clients) (j : Fin 20) (io : TcpIo) : TcpCalls Clients := do
  if (c.t j).state = -1 then
    if io.written ≤ 0 then return c.tClose j
    else
      let c := c.setT j { c.t j with pos := (c.t j).pos + io.written.toNat }
      if (c.t j).pos = (c.t j).len then
        let c := c.tFree j
        return c.setT j { c.t j with state := 1 }
      else return c
  else if (c.t j).state ≠ 1 ∧ (c.t j).state ≠ 2 ∧ (c.t j).state ≠ 3 then return c
  else
    match ← TcpCalls.read (c.t j).toread io.chunk with
    | none => return c.tClose j
    | some [] => return c.tClose j
    | some (ch :: chunk) =>
      if (c.t j).state = 1 then
        let c := c.setT j { c.t j with len := ch.toNat * 256, state := 2 }
        match chunk with
        | [] => return c
        | ch :: _ => c.tLength j ch io.room
      else if (c.t j).state = 2 then c.tLength j ch io.room
      else c.tFill j (ch :: chunk) io

def Clients.tSlot (c : Clients) : Fin 20 × Clients :=
  match (List.finRange 20).find? fun j => (c.t j).active = 0 with
  | some j => (j, c)
  | none =>
    let j := oldest fun j => (c.t j).start
    (j, if (c.t j).state = 0 then c.tDrop j else c.tClose j)

/-- A connection: the peer's port, whether `okclient` knows the peer, and whether `ndelay_on`
succeeds. -/
structure Connection where
  port : Nat
  ok : Bool
  ndelay : Bool

def Clients.tNew (c : Clients) (now : Nat) (accepted : Option Connection) : Clients :=
  let (j, c) := c.tSlot
  let c := c.setT j { c.t j with start := now }
  match accepted with
  | none => c
  | some x =>
    if x.port < 1024 ∧ x.port ≠ 53 then c
    else if ¬ x.ok then c
    else if ¬ x.ndelay then c
    else
      let c := { c.setT j { c.t j with active := 1, state := 1 } with tactive := c.tactive + 1 }
      c.tTimeout j now

/-! ## The main loop -/

/-- What the loop of `doit` deals with, one slot or socket at a time. -/
inductive Event where
  | udp (j : Fin 200) (got : Outcome)
  | tcp (j : Fin 20) (io : TcpIo)
  | datagram (a : Arrival)
  | connection (now : Nat) (accepted : Option Connection)

def Clients.udp (c : Clients) (j : Fin 200) (got : Outcome) : Clients :=
  if (c.u j).active = 0 then c
  else
    match got with
    | .failed => c.uDrop j
    | .answered response => c.uRespond j response
    | .pending => c

def Clients.tcp (c : Clients) (j : Fin 20) (io : TcpIo) : TcpCalls Clients := do
  if (c.t j).active = 0 then return c
  else
    let c := if io.reported then c.tTimeout j io.now else c
    if (c.t j).state = 0 then
      match io.got with
      | .failed => return c.tDrop j
      | .answered response => c.tRespond j response io.replyRoom
      | .pending => return c
    else if io.reported ∨ io.late then c.tRw j io
    else return c

def Clients.step (c : Clients) : Event → Clients
  | .udp j got => c.udp j got
  | .tcp j io => (c.tcp j io).run.1
  | .datagram a => c.uNew a
  | .connection now accepted => c.tNew now accepted

/-- What one turn of the loop finds. -/
structure Turn where
  udp : Fin 200 → Outcome
  tcp : Fin 20 → TcpIo
  datagram : Option Arrival
  connection : Option (Nat × Option Connection)

/-- One turn of the loop: the UDP slots, the TCP slots, then the two sockets. -/
def Turn.events (turn : Turn) : List Event :=
  (List.finRange 200).map (fun j => .udp j (turn.udp j)) ++
    (List.finRange 20).map (fun j => .tcp j (turn.tcp j)) ++
    (turn.datagram.map Event.datagram).toList ++
    (turn.connection.map fun x => Event.connection x.1 x.2).toList

/-! ## The books -/

/-- A slot that counts for `soaactive`. -/
def UdpClient.Soa (x : UdpClient) : Prop := x.active ≠ 0 ∧ x.type = dnsTSoa

instance : DecidablePred UdpClient.Soa := fun _ => inferInstanceAs (Decidable (_ ∧ _))

/-- The counters say what the tables say. -/
structure Books (c : Clients) : Prop where
  uactive : c.uactive = Run.tally (fun x : UdpClient => x.active ≠ 0) c.u
  tactive : c.tactive = Run.tally (fun x : TcpClient => x.active ≠ 0) c.t
  soaactive : c.soaactive = Run.tally UdpClient.Soa c.u
  most : c.soaactive ≤ maxsoa

/-- What one slot contributes to a count. -/
def share (p : Prop) [Decidable p] : Int := if p then 1 else 0

theorem tally_share {ι κ : Type} [Fintype ι] [DecidableEq ι] (p : κ → Prop) [DecidablePred p]
    (table : ι → κ) (j : ι) (x : κ) :
    (Run.tally p (Function.update table j x) : Int) = Run.tally p table - share (p (table j)) +
      share (p x) := by
  have moved := Run.tally_update p table j x
  unfold share
  by_cases before : p (table j) <;> by_cases after : p x <;> simp only [before, after, if_true,
    if_false] at moved ⊢ <;> omega

/-- The books after a change to one UDP slot. -/
theorem Books.setU_iff {c : Clients} (books : Books c) (j : Fin 200) (x : UdpClient)
    (uactive soaactive : Int) (numqueries : Nat) :
    Books { c.setU j x with
        uactive := uactive, soaactive := soaactive, numqueries := numqueries } ↔
      uactive = c.uactive - share ((c.u j).active ≠ 0) + share (x.active ≠ 0) ∧
        soaactive = c.soaactive - share (c.u j).Soa + share x.Soa ∧ soaactive ≤ maxsoa := by
  have hu := tally_share (fun x : UdpClient => x.active ≠ 0) c.u j x
  have hs := tally_share UdpClient.Soa c.u j x
  constructor
  · intro after
    have hu' : uactive = _ := after.uactive
    have hs' : soaactive = _ := after.soaactive
    exact ⟨by rw [hu', books.uactive]; exact hu, by rw [hs', books.soaactive]; exact hs, after.most⟩
  · rintro ⟨hu', hs', most⟩
    refine ⟨?_, books.tactive, ?_, most⟩
    · show uactive = _
      rw [hu', books.uactive]
      exact hu.symm
    · show soaactive = _
      rw [hs', books.soaactive]
      exact hs.symm

/-- The books after a change to one TCP slot. -/
theorem Books.setT_iff {c : Clients} (books : Books c) (j : Fin 20) (x : TcpClient)
    (tactive : Int) (numqueries : Nat) :
    Books { c.setT j x with tactive := tactive, numqueries := numqueries } ↔
      tactive = c.tactive - share ((c.t j).active ≠ 0) + share (x.active ≠ 0) := by
  have ht := tally_share (fun x : TcpClient => x.active ≠ 0) c.t j x
  constructor
  · intro after
    have ht' : tactive = _ := after.tactive
    rw [ht', books.tactive]
    exact ht
  · intro ht'
    refine ⟨books.uactive, ?_, books.soaactive, books.most⟩
    show tactive = _
    rw [ht', books.tactive]
    exact ht.symm

theorem share_true {p : Prop} [Decidable p] (h : p) : share p = 1 := if_pos h

theorem share_false {p : Prop} [Decidable p] (h : ¬ p) : share p = 0 := if_neg h

theorem share_congr {p q : Prop} [Decidable p] [Decidable q] (h : p ↔ q) : share p = share q :=
  if_congr h rfl rfl

/-- A slot that is let go counts for nothing. -/
theorem not_soa_free {x : UdpClient} (free : x.active = 0) : ¬ x.Soa := fun soa => soa.1 free

theorem Books.uEnd {c : Clients} (books : Books c) (j : Fin 200) : Books (c.uEnd j) := by
  unfold Clients.uEnd
  split
  · exact books
  · rename_i active
    refine (books.setU_iff j _ _ _ c.numqueries).mpr ?_
    have after : ¬ UdpClient.Soa { c.u j with active := 0 } := not_soa_free rfl
    have most := books.most
    rw [share_true active, share_false (not_not_intro rfl), share_false after]
    by_cases type : (c.u j).type = dnsTSoa
    · have before : (c.u j).Soa := ⟨active, type⟩
      rw [share_true before, if_pos type]
      omega
    · have before : ¬ (c.u j).Soa := fun soa => type soa.2
      rw [share_false before, if_neg type]
      omega

theorem Books.uSlot {c : Clients} (books : Books c) :
    Books c.uSlot.2 ∧ (c.uSlot.2.u c.uSlot.1).active = 0 := by
  unfold Clients.uSlot
  split
  · rename_i j hfind
    have free := List.find?_some hfind
    exact ⟨books, of_decide_eq_true free⟩
  · refine ⟨books.uEnd _, ?_⟩
    show ((c.uEnd _).u _).active = 0
    unfold Clients.uEnd
    split
    · assumption
    · show (Function.update c.u _ _ _).active = 0
      rw [Function.update_self]

/-- A change that leaves a slot as active as it was, and of the same type. -/
theorem Books.touchU {c : Clients} (books : Books c) (j : Fin 200) (x : UdpClient)
    (active : x.active = (c.u j).active) (type : x.type = (c.u j).type) : Books (c.setU j x) := by
  refine (books.setU_iff j x c.uactive c.soaactive c.numqueries).mpr ?_
  have soa : share x.Soa = share (c.u j).Soa := by
    refine share_congr ?_
    unfold UdpClient.Soa
    rw [active, type]
  rw [soa, active]
  have most := books.most
  omega

/-- A TCP slot that stays as active as it was is of no concern. -/
theorem books_touchT {c : Clients} (j : Fin 20) (x : TcpClient)
    (active : x.active = (c.t j).active) : Books (c.setT j x) ↔ Books c := by
  have same : (Run.tally (fun x : TcpClient => x.active ≠ 0) (Function.update c.t j x) : Int) =
      Run.tally (fun x : TcpClient => x.active ≠ 0) c.t := by
    rw [tally_share, active]
    omega
  constructor
  · intro books
    exact ⟨books.uactive, books.tactive.trans same, books.soaactive, books.most⟩
  · intro books
    exact ⟨books.uactive, books.tactive.trans same.symm, books.soaactive, books.most⟩

/-- `query_start` answers without having written the type. -/
def turnedAway (type : Bytes) (start : Start) : Prop := type = dnsTAxfr ∨ ¬ start.copied

/-- The queries that the counters survive: the ones dropped for `MAXSOA`; and, while the query
counter does not come round to 0, all others but those that `query_start` turns away in a slot whose
query before was an SOA query when this one is not, or the other way round. -/
def Clients.FitsQuery (c : Clients) (j : Fin 200) (q : Question) (start : Start) : Prop :=
  (q.qtype = dnsTSoa ∧ c.soaactive ≥ maxsoa) ∨
    c.nextQuery ≠ 0 ∧
      (turnedAway q.qtype start → ((c.u j).type = dnsTSoa ↔ q.qtype = dnsTSoa))

theorem queryStart_cases (stored type : Bytes) (start : Start) :
    (turnedAway type start ∧ queryStart stored type start = (stored, .failed)) ∨
      ¬ turnedAway type start ∧ queryStart stored type start = (type, start.outcome) := by
  unfold turnedAway queryStart
  by_cases axfr : type = dnsTAxfr
  · exact .inl ⟨.inl axfr, if_pos axfr⟩
  · by_cases copied : start.copied
    · exact .inr ⟨not_or.mpr ⟨axfr, not_not_intro copied⟩, by
        rw [if_neg axfr, if_neg (not_not_intro copied)]⟩
    · exact .inl ⟨.inr copied, by rw [if_neg axfr, if_pos copied]⟩

/-- `u_new` with the query admitted and `query_start` called. -/
def Clients.started (c : Clients) (j : Fin 200) (q : Question) (type : Bytes) : Clients :=
  { c.setU j { c.u j with active := c.nextQuery, type := type } with
    uactive := c.uactive + 1
    soaactive := if q.qtype = dnsTSoa then c.soaactive + 1 else c.soaactive
    numqueries := c.nextQuery }

theorem Clients.uQuery_eq (c : Clients) (j : Fin 200) (q : Question) (start : Start) :
    c.uQuery j q start =
      if q.qtype = dnsTSoa ∧ c.soaactive ≥ maxsoa then
        { c.setU j { c.u j with active := 0 } with
          uactive := c.uactive + 1 - 1
          soaactive := c.soaactive
          numqueries := c.nextQuery }
      else
        match queryStart (c.u j).type q.qtype start with
        | (type, .pending) => c.started j q type
        | (type, _) => (c.started j q type).uEnd j := by
  unfold Clients.uQuery Clients.started Clients.uDrop Clients.uRespond
  simp only [Clients.setU, Function.update_self, Function.update_idem]
  split
  · rfl
  · rcases queryStart (c.u j).type q.qtype start with ⟨type, _ | _ | response⟩ <;> rfl

section Admitted

variable {c : Clients} (books : Books c) {j : Fin 200} (free : (c.u j).active = 0) {q : Question}
  (room : ¬ (q.qtype = dnsTSoa ∧ c.soaactive ≥ maxsoa))
include books free room

/-- The books with the query admitted: the type in the slot is the one the counter went by. -/
theorem Books.started_iff (type : Bytes) :
    Books (c.started j q type) ↔ c.nextQuery ≠ 0 ∧ (type = dnsTSoa ↔ q.qtype = dnsTSoa) := by
  have most := books.most
  have before : share ((c.u j).active ≠ 0) = 0 := share_false (not_not_intro free)
  have beforeSoa : share (c.u j).Soa = 0 := share_false (not_soa_free free)
  unfold Clients.started
  rw [books.setU_iff, before, beforeSoa]
  by_cases wrap : c.nextQuery = 0
  · rw [share_false (not_not_intro wrap)]
    refine iff_of_false (fun h => ?_) fun h => h.1 wrap
    omega
  · rw [share_true wrap]
    have after : share (UdpClient.Soa { c.u j with active := c.nextQuery, type := type }) =
        share (type = dnsTSoa) := share_congr ⟨fun soa => soa.2, fun h => ⟨wrap, h⟩⟩
    rw [after]
    unfold share
    by_cases soa : q.qtype = dnsTSoa
    · have below : ¬ c.soaactive ≥ maxsoa := fun h => room ⟨soa, h⟩
      by_cases same : type = dnsTSoa
      · simp only [soa, same, if_true]
        refine iff_of_true ?_ ⟨wrap, trivial⟩
        omega
      · simp only [soa, same, if_true, if_false]
        refine iff_of_false ?_ fun h => h.2.mpr trivial
        omega
    · by_cases same : type = dnsTSoa
      · simp only [soa, same, if_true, if_false]
        refine iff_of_false ?_ fun h => h.2.mp trivial
        omega
      · simp only [soa, same, if_false]
        refine iff_of_true ?_ ⟨wrap, trivial⟩
        omega

/-- The same, once the query is dropped or answered. -/
theorem Books.ended_iff (type : Bytes) :
    Books ((c.started j q type).uEnd j) ↔
      c.nextQuery ≠ 0 ∧ (type = dnsTSoa ↔ q.qtype = dnsTSoa) := by
  have most := books.most
  have before : share ((c.u j).active ≠ 0) = 0 := share_false (not_not_intro free)
  have beforeSoa : share (c.u j).Soa = 0 := share_false (not_soa_free free)
  have inside : (c.started j q type).u j = { c.u j with active := c.nextQuery, type := type } := by
    show Function.update c.u j _ j = _
    rw [Function.update_self]
  by_cases wrap : c.nextQuery = 0
  · have left : (c.started j q type).uEnd j = c.started j q type := by
      unfold Clients.uEnd
      rw [inside, if_pos wrap]
    rw [left]
    exact books.started_iff free room type
  · have ended : (c.started j q type).uEnd j =
        { c.setU j { c.u j with active := 0, type := type } with
          uactive := c.uactive + 1 - 1
          soaactive :=
            if type = dnsTSoa then (if q.qtype = dnsTSoa then c.soaactive + 1 else c.soaactive) - 1
            else if q.qtype = dnsTSoa then c.soaactive + 1 else c.soaactive
          numqueries := c.nextQuery } := by
      unfold Clients.uEnd
      rw [inside, if_neg wrap]
      unfold Clients.started Clients.setU
      simp only [Function.update_idem]
    have after : ¬ UdpClient.Soa { c.u j with active := 0, type := type } := not_soa_free rfl
    rw [ended, books.setU_iff, before, beforeSoa, share_false (not_not_intro rfl), share_false after]
    by_cases soa : q.qtype = dnsTSoa <;> by_cases same : type = dnsTSoa <;>
      simp only [soa, same, if_true, if_false, iff_true, iff_false, not_true, and_false, and_true]
    all_goals first
      | refine iff_of_true ?_ wrap; omega
      | omega

omit room in
theorem Books.uQuery_full (full : q.qtype = dnsTSoa ∧ c.soaactive ≥ maxsoa) (start : Start) :
    Books (c.uQuery j q start) := by
  have most := books.most
  have after : ¬ UdpClient.Soa { c.u j with active := 0 } := not_soa_free rfl
  rw [c.uQuery_eq j q start, if_pos full]
  refine (books.setU_iff j _ _ _ _).mpr ?_
  rw [share_false (not_not_intro free), share_false (not_soa_free free),
    share_false (not_not_intro rfl), share_false after]
  omega

theorem Books.uQuery_iff (start : Start) :
    Books (c.uQuery j q start) ↔ c.FitsQuery j q start := by
  rw [c.uQuery_eq j q start, if_neg room]
  unfold Clients.FitsQuery
  rcases queryStart_cases (c.u j).type q.qtype start with ⟨away, h⟩ | ⟨stays, h⟩
  · rw [h]
    simp only []
    rw [books.ended_iff free room]
    simp only [room, false_or, away, true_imp_iff]
  · rw [h]
    rcases start.outcome with _ | _ | response
    all_goals simp only []
    all_goals first
      | rw [books.ended_iff free room]
      | rw [books.started_iff free room]
    all_goals simp only [room, false_or, stays, false_imp_iff, and_true]

end Admitted

theorem Books.uNew_iff {c : Clients} (books : Books c) (a : Arrival) :
    Books (c.uNew a) ↔
      ∀ q, a.question = some q → c.uSlot.2.FitsQuery c.uSlot.1 q a.start := by
  obtain ⟨kept, free⟩ := books.uSlot
  unfold Clients.uNew
  generalize c.uSlot = slot at kept free ⊢
  obtain ⟨j, c⟩ := slot
  simp only [] at kept free ⊢
  have inside : (c.setU j { c.u j with start := a.now }).u j = { c.u j with start := a.now } :=
    Function.update_self ..
  have dated : Books (c.setU j { c.u j with start := a.now }) := kept.touchU j _ rfl rfl
  have still : ((c.setU j { c.u j with start := a.now }).u j).active = 0 := by rw [inside]; exact free
  cases hq : a.question with
  | none => exact iff_of_true dated fun q h => nomatch h
  | some q =>
    have fits : (c.setU j { c.u j with start := a.now }).FitsQuery j q a.start ↔
        c.FitsQuery j q a.start := by
      unfold Clients.FitsQuery
      rw [inside]
      rfl
    simp only [Option.some.injEq, forall_eq']
    rw [← fits]
    by_cases full : q.qtype = dnsTSoa ∧ (c.setU j { c.u j with start := a.now }).soaactive ≥ maxsoa
    · exact iff_of_true (dated.uQuery_full still full a.start) (.inl full)
    · exact dated.uQuery_iff still full a.start

/-! ### TCP -/

theorem books_tFree {c : Clients} (j : Fin 20) : Books (c.tFree j) ↔ Books c :=
  books_touchT j _ rfl

theorem books_tTimeout {c : Clients} (j : Fin 20) (now : Nat) :
    Books (c.tTimeout j now) ↔ Books c := by
  unfold Clients.tTimeout
  split
  · rfl
  · exact books_touchT j _ rfl

theorem Books.tClose {c : Clients} (books : Books c) (j : Fin 20) : Books (c.tClose j) := by
  unfold Clients.tClose
  split
  · exact books
  · rename_i active
    have freed := (books_tFree j).mpr books
    refine (freed.setT_iff j _ _ c.numqueries).mpr ?_
    have inside : ((c.tFree j).t j).active = (c.t j).active := by
      unfold Clients.tFree Clients.setT
      simp only [Function.update_self]
    rw [inside, share_true active, share_false (not_not_intro rfl)]
    show c.tactive - 1 = c.tactive - 1 + 0
    omega

theorem Books.tRespond {c : Clients} (books : Books c) (j : Fin 20) (response : Bytes)
    (room : Bool) : Books (c.tRespond j response room).run.1 := by
  unfold Clients.tRespond
  split
  · exact books
  · have sized := (books_touchT j { c.t j with len := response.length + 2 } rfl).mpr books
    have freed := (books_tFree j).mpr sized
    cases room with
    | false => exact freed.tClose j
    | true => exact (books_touchT j _ (by rfl)).mpr freed

theorem Books.tLength {c : Clients} (books : Books c) (j : Fin 20) (ch : UInt8) (room : Bool) :
    Books (c.tLength j ch room).run.1 := by
  have sized := (books_touchT j { c.t j with len := (c.t j).len + ch.toNat } rfl).mpr books
  unfold Clients.tLength
  simp only []
  split
  · exact sized.tClose j
  · cases room with
    | false => exact sized.tClose j
    | true => exact (books_touchT j _ (by rfl)).mpr sized

/-- `t_rw` with `query_start` called. -/
def Clients.tStarted (c : Clients) (j : Fin 20) (type : Bytes) : Clients :=
  { c.setT j { c.t j with active := c.nextQuery, type := type } with numqueries := c.nextQuery }

theorem Clients.tQuery_eq (c : Clients) (j : Fin 20) (q : Question) (io : TcpIo) :
    c.tQuery j q io =
      match queryStart (c.t j).type q.qtype io.start with
      | (type, .failed) => return (c.tStarted j type).tDrop j
      | (type, .answered response) => (c.tStarted j type).tRespond j response io.replyRoom
      | (type, .pending) =>
        let c := (c.tStarted j type).tFree j
        return c.setT j { c.t j with state := 0 } := by
  unfold Clients.tQuery Clients.tStarted
  simp only [Clients.setT, Function.update_self, Function.update_idem]
  rcases queryStart (c.t j).type q.qtype io.start with ⟨type, _ | _ | response⟩ <;> rfl

/-- A query over TCP keeps the books unless the query counter comes round to 0: the slot would then
be taken for a free one. -/
theorem Books.tQuery_iff {c : Clients} (books : Books c) {j : Fin 20}
    (active : (c.t j).active ≠ 0) (q : Question) (io : TcpIo) :
    Books (c.tQuery j q io).run.1 ↔ c.nextQuery ≠ 0 := by
  have counted (type : Bytes) : Books (c.tStarted j type) ↔ c.nextQuery ≠ 0 := by
    refine (books.setT_iff j _ c.tactive c.nextQuery).trans ?_
    rw [share_true active]
    unfold share
    split <;> rename_i wrap
    · exact iff_of_true (by omega) wrap
    · exact iff_of_false (by omega) wrap
  have number (type : Bytes) : ((c.tStarted j type).t j).active = c.nextQuery := by
    unfold Clients.tStarted Clients.setT
    simp only [Function.update_self]
  rw [c.tQuery_eq j q io]
  rcases queryStart (c.t j).type q.qtype io.start with ⟨type, _ | _ | response⟩
  case failed =>
    by_cases wrap : c.nextQuery = 0
    · have left : (c.tStarted j type).tDrop j = c.tStarted j type :=
        if_pos ((number type).trans wrap)
      show Books ((c.tStarted j type).tDrop j) ↔ _
      rw [left, counted]
    · exact iff_of_true (((counted type).mpr wrap).tClose j) wrap
  case pending =>
    refine (books_touchT j _ (by rfl)).trans ?_
    rw [books_tFree, counted]
  case answered =>
    by_cases wrap : c.nextQuery = 0
    · have left : (c.tStarted j type).tRespond j response io.replyRoom =
          (return c.tStarted j type) := if_pos ((number type).trans wrap)
      simp only []
      rw [left]
      exact counted type
    · exact iff_of_true (((counted type).mpr wrap).tRespond j response _) wrap

/-- The query that a chunk completes, as `packetquery` gets it. -/
def TcpClient.query (x : TcpClient) (chunk : Bytes) : Option Bytes :=
  if x.pos + chunk.length < x.len then none
  else some (((x.buf.getD []).take x.pos ++ chunk).take x.len)

/-- The question that what is read completes. -/
def TcpClient.question (x : TcpClient) (io : TcpIo) : Option Question :=
  if x.state ≠ 3 then none
  else
    match io.chunk with
    | none => none
    | some [] => none
    | some (ch :: chunk) => (x.query (ch :: chunk)).bind packetquery

/-- The slot with octets of a query copied into its buffer. -/
def TcpClient.filled (x : TcpClient) (chunk : Bytes) : TcpClient :=
  { x with buf := some ((x.buf.getD []).take x.pos ++ chunk), pos := x.pos + chunk.length }

theorem Clients.tFill_run (c : Clients) (j : Fin 20) (chunk : Bytes) (io : TcpIo) :
    (c.tFill j chunk io).run =
      if (c.t j).pos + chunk.length < (c.t j).len then
        (c.setT j ((c.t j).filled chunk), [.copy (c.t j).pos chunk])
      else
        let d := c.setT j ((c.t j).filled chunk)
        let buf := ((c.t j).buf.getD []).take (c.t j).pos ++ chunk
        match packetquery (buf.take (c.t j).len) with
        | none => (d.tClose j, [.copy (c.t j).pos chunk, .packetquery buf (c.t j).len])
        | some q => ((d.tQuery j q io).run.1,
            .copy (c.t j).pos chunk :: .packetquery buf (c.t j).len :: (d.tQuery j q io).run.2) := by
  have slot : (c.setT j ((c.t j).filled chunk)).t j = (c.t j).filled chunk :=
    Function.update_self ..
  have copied (x y : TcpCalls Clients) (eq : x = y) :
      (x.run.1, TcpCall.copy (c.t j).pos chunk :: x.run.2) =
        (y.run.1, TcpCall.copy (c.t j).pos chunk :: y.run.2) := by rw [eq]
  by_cases more : (c.t j).pos + chunk.length < (c.t j).len
  · rw [if_pos more]
    have branch : ((c.setT j ((c.t j).filled chunk)).t j).pos <
        ((c.setT j ((c.t j).filled chunk)).t j).len := by rw [slot]; exact more
    exact copied _ _ (if_pos branch)
  · rw [if_neg more]
    have branch : ¬ ((c.setT j ((c.t j).filled chunk)).t j).pos <
        ((c.setT j ((c.t j).filled chunk)).t j).len := by rw [slot]; exact more
    refine (copied _ _ (if_neg branch)).trans ?_
    simp only [Clients.setT, Function.update_self, TcpClient.filled, TcpCalls.packetquery]
    cases packetquery ((((c.t j).buf.getD []).take (c.t j).pos ++ chunk).take (c.t j).len) with
    | none => rfl
    | some q => rfl

theorem Books.tFill_iff {c : Clients} (books : Books c) {j : Fin 20}
    (active : (c.t j).active ≠ 0) (chunk : Bytes) (io : TcpIo) :
    Books (c.tFill j chunk io).run.1 ↔
      ∀ q, ((c.t j).query chunk).bind packetquery = some q → c.nextQuery ≠ 0 := by
  have filled := (books_touchT j ((c.t j).filled chunk) (by rfl)).mpr books
  rw [c.tFill_run j chunk io]
  by_cases more : (c.t j).pos + chunk.length < (c.t j).len
  · have none_yet : (c.t j).query chunk = none := if_pos more
    rw [if_pos more, none_yet]
    exact iff_of_true filled fun q hq => nomatch hq
  · have whole : (c.t j).query chunk = some _ := if_neg more
    rw [if_neg more, whole]
    simp only [Option.bind_some]
    cases packetquery ((((c.t j).buf.getD []).take (c.t j).pos ++ chunk).take (c.t j).len) with
    | none => exact iff_of_true (filled.tClose j) fun q hq => nomatch hq
    | some q =>
      simp only [Option.some.injEq, forall_eq']
      refine filled.tQuery_iff ?_ q io
      rw [show ((c.setT j _).t j) = _ from Function.update_self ..]
      exact active

theorem Books.tRw_iff {c : Clients} (books : Books c) {j : Fin 20}
    (active : (c.t j).active ≠ 0) (io : TcpIo) :
    Books (c.tRw j io).run.1 ↔ ∀ q, (c.t j).question io = some q → c.nextQuery ≠ 0 := by
  have quiet {P : Prop} (h : (c.t j).question io = none) :
      P → (P ↔ ∀ q, (c.t j).question io = some q → c.nextQuery ≠ 0) := by
    intro p
    refine iff_of_true p fun q hq => ?_
    rw [h] at hq
    cases hq
  have idle (h : (c.t j).state ≠ 3) : (c.t j).question io = none := if_pos h
  unfold Clients.tRw
  by_cases writing : (c.t j).state = -1
  · rw [if_pos writing]
    refine quiet (idle (by omega)) ?_
    split
    · exact books.tClose j
    · have moved := (books_touchT j
        { c.t j with pos := (c.t j).pos + io.written.toNat } (by rfl)).mpr books
      simp only []
      split
      · exact (books_touchT j _ (by rfl)).mpr ((books_tFree j).mpr moved)
      · exact moved
  · rw [if_neg writing]
    by_cases other : (c.t j).state ≠ 1 ∧ (c.t j).state ≠ 2 ∧ (c.t j).state ≠ 3
    · rw [if_pos other]
      exact quiet (idle other.2.2) books
    · rw [if_neg other]
      rcases hchunk : io.chunk with _ | _ | ⟨ch, chunk⟩
      · refine quiet ?_ (books.tClose j)
        unfold TcpClient.question
        rw [hchunk]
        split <;> rfl
      · refine quiet ?_ (books.tClose j)
        unfold TcpClient.question
        rw [hchunk]
        split <;> rfl
      · show Books (WriterT.run (ite _ _ _ : TcpCalls Clients)).1 ↔ _
        by_cases one : (c.t j).state = 1
        · rw [if_pos one]
          refine quiet (idle (by omega)) ?_
          have begun := (books_touchT j
            { c.t j with len := ch.toNat * 256, state := 2 } (by rfl)).mpr books
          rcases chunk with _ | ⟨ch', chunk⟩
          · exact begun
          · exact begun.tLength j ch' _
        · rw [if_neg one]
          by_cases two : (c.t j).state = 2
          · rw [if_pos two]
            exact quiet (idle (by omega)) (books.tLength j ch _)
          · rw [if_neg two]
            have question : (c.t j).question io = ((c.t j).query (ch :: chunk)).bind packetquery := by
              unfold TcpClient.question
              rw [if_neg (by omega), hchunk]
            rw [question]
            exact books.tFill_iff active (ch :: chunk) io

/-- The runs that keep the books: every query over UDP is one that the counters survive, and no
query over TCP makes the query counter come round to 0. -/
def Clients.Fits (c : Clients) : Event → Prop
  | .datagram a => ∀ q, a.question = some q → c.uSlot.2.FitsQuery c.uSlot.1 q a.start
  | .tcp j io =>
    (c.t j).active ≠ 0 → io.reported ∨ io.late → ∀ q, (c.t j).question io = some q → c.nextQuery ≠ 0
  | _ => True

theorem Books.udp {c : Clients} (books : Books c) (j : Fin 200) (got : Outcome) :
    Books (c.udp j got) := by
  unfold Clients.udp
  split
  · exact books
  · cases got with
    | failed => exact books.uEnd j
    | pending => exact books
    | answered response => exact books.uEnd j

theorem Books.tSlot {c : Clients} (books : Books c) :
    Books c.tSlot.2 ∧ (c.tSlot.2.t c.tSlot.1).active = 0 := by
  unfold Clients.tSlot
  split
  · rename_i j hfind
    have free := List.find?_some hfind
    exact ⟨books, of_decide_eq_true free⟩
  · simp only []
    have closes : ∀ j, Books (c.tClose j) ∧ ((c.tClose j).t j).active = 0 := by
      intro j
      refine ⟨books.tClose j, ?_⟩
      unfold Clients.tClose
      split
      · assumption
      · unfold Clients.setT
        simp only [Function.update_self]
    split
    · exact closes _
    · exact closes _

theorem Books.tNew {c : Clients} (books : Books c) (now : Nat) (accepted : Option Connection) :
    Books (c.tNew now accepted) := by
  obtain ⟨kept, free⟩ := books.tSlot
  unfold Clients.tNew
  generalize c.tSlot = slot at kept free ⊢
  obtain ⟨j, c⟩ := slot
  simp only [] at kept free ⊢
  have dated := (books_touchT j { c.t j with start := now } (by rfl)).mpr kept
  have inside : (c.setT j { c.t j with start := now }).t j = { c.t j with start := now } :=
    Function.update_self ..
  cases accepted with
  | none => exact dated
  | some x =>
    simp only []
    split
    · exact dated
    · split
      · exact dated
      · split
        · exact dated
        · rw [books_tTimeout]
          refine (dated.setT_iff j _ _ c.numqueries).mpr ?_
          rw [inside, share_false (not_not_intro free), share_true (show (1 : Nat) ≠ 0 from one_ne_zero)]
          show c.tactive + 1 = c.tactive - 0 + 1
          omega

theorem Books.tcp_iff {c : Clients} (books : Books c) (j : Fin 20) (io : TcpIo) :
    Books (c.tcp j io).run.1 ↔ c.Fits (.tcp j io) := by
  unfold Clients.tcp Clients.Fits
  by_cases active : (c.t j).active = 0
  · rw [if_pos active]
    exact iff_of_true books fun h => absurd active h
  · rw [if_neg active]
    have timed : ∃ timeout, ∃ c' : Clients,
        (if io.reported then c.tTimeout j io.now else c) = c' ∧ Books c' ∧
          c'.t j = { c.t j with timeout := timeout } ∧ c'.nextQuery = c.nextQuery := by
      by_cases reported : io.reported
      · refine ⟨io.now + 10, _, if_pos reported, (books_tTimeout j io.now).mpr books, ?_, ?_⟩
        · unfold Clients.tTimeout
          rw [if_neg active]
          exact Function.update_self ..
        · unfold Clients.tTimeout
          rw [if_neg active]
          rfl
      · exact ⟨(c.t j).timeout, c, if_neg reported, books, rfl, rfl⟩
    obtain ⟨timeout, c', hc', books', slot, next⟩ := timed
    simp only []
    rw [hc', slot]
    simp only []
    by_cases waiting : (c.t j).state = 0
    · rw [if_pos waiting]
      have quiet : (c.t j).question io = none := if_pos (by omega)
      have fits : (c.t j).active ≠ 0 → io.reported ∨ io.late → ∀ q,
          (c.t j).question io = some q → c.nextQuery ≠ 0 := by
        intro _ _ q hq
        rw [quiet] at hq
        cases hq
      refine iff_of_true ?_ fits
      cases io.got with
      | failed => exact books'.tClose j
      | pending => exact books'
      | answered response => exact books'.tRespond j response _
    · rw [if_neg waiting]
      by_cases ready : io.reported ∨ io.late
      · have question : (c'.t j).question io = (c.t j).question io := by
          rw [slot]
          rfl
        rw [if_pos ready, books'.tRw_iff (by rw [slot]; exact active), next, question]
        exact ⟨fun h _ _ => h, fun h => h active ready⟩
      · rw [if_neg ready]
        exact iff_of_true books' fun _ h => absurd h ready

/-- **Books from event to event.** -/
theorem Books.step_iff {c : Clients} (e : Event) (books : Books c) :
    Books (c.step e) ↔ c.Fits e := by
  cases e with
  | udp j got => exact iff_of_true (books.udp j got) trivial
  | tcp j io => exact books.tcp_iff j io
  | datagram a => exact books.uNew_iff a
  | connection now accepted => exact iff_of_true (books.tNew now accepted) trivial

theorem books_idle : Books .idle where
  uactive := by
    show (0 : Int) = _
    unfold Run.tally
    simp [Clients.idle]
  tactive := by
    show (0 : Int) = _
    unfold Run.tally
    simp [Clients.idle]
  soaactive := by
    show (0 : Int) = _
    unfold Run.tally
    simp [Clients.idle, UdpClient.Soa]
  most := by decide

/-- Any number of turns of the main loop, when every event in them fits. -/
theorem Books.turns {turns : List Turn}
    (fits : Run.Along Clients.step Clients.Fits .idle (turns.flatMap Turn.events)) :
    ∀ c ∈ Run.visited Clients.step .idle (turns.flatMap Turn.events), Books c :=
  (Run.visited_iff (fun _ e books => books.step_iff e) books_idle _).mpr fits

/-- **The counters and the tables agree in every state of a run exactly when every event of it
fits**: whatever comes in, in any order. -/
theorem books_iff (events : List Event) :
    (∀ c ∈ Run.visited Clients.step .idle events, Books c) ↔
      Run.Along Clients.step Clients.Fits .idle events :=
  Run.visited_iff (fun _ e books => books.step_iff e) books_idle events

/-- A query for `localhost`, from a client `okclient` knows. -/
def localhostQuery (qtype : Bytes) (outcome : Outcome) : Event :=
  .datagram ⟨1, some ⟨[7, 7, 1, 0, 0, 1, 0, 0, 0, 0, 0, 0] ++ [9] ++ ascii "localhost" ++ [0] ++
    qtype ++ dnsCIn, 5353, true⟩, ⟨true, outcome⟩⟩

/-- An SOA query that is answered, and an AXFR query behind it in the same slot. -/
theorem books_axfr :
    (Clients.step (.step .idle (localhostQuery dnsTSoa (.answered [])))
        (localhostQuery dnsTAxfr .failed)).soaactive = -1 ∧
      ¬ ∀ events, ∀ c ∈ Run.visited Clients.step .idle events, Books c := by
  have below : (Clients.step (.step .idle (localhostQuery dnsTSoa (.answered [])))
      (localhostQuery dnsTAxfr .failed)).soaactive = -1 := by decide +kernel
  refine ⟨below, fun all => ?_⟩
  have books := all [localhostQuery dnsTSoa (.answered []), localhostQuery dnsTAxfr .failed] _
    (List.mem_cons_of_mem _ (List.mem_cons_of_mem _ List.mem_cons_self))
  have count := books.soaactive
  rw [below] at count
  omega

end TinyDnssec.Dnscache
