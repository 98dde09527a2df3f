import TinyDnssec.Base.Framing
import TinyDnssec.Dns
import TinyDnssec.Packet
import TinyDnssec.Query.Glue

/-!
# A query on its way

`dns_transmit.c`: a query goes to sixteen servers over UDP, in up to four rounds, and over TCP when an
answer is cut short or the query is for that. Every attempt has a socket and an identifier of its own.
What calls of the system come to is up to the events; a socket here is what has been sent and read over
it.

Whatever packet `dns_transmit_get` returns answers the query that was sent over the socket it came by
(`answered`).

Who sent a packet is not known: one that fits the query and comes to its socket is taken for the server's.
-/

namespace TinyDnssec.Transmit

open Octets Framing

/-! ## The functions -/

/-- What `d->query` holds: an identifier, a header and a question. -/
structure Query where
  id : UInt8 × UInt8
  recursive : Bool
  q : Name
  qtype : Bytes
  two : qtype.length = 2

/-- The query as a packet. -/
def Query.message (query : Query) : Bytes :=
  [query.id.1, query.id.2] ++ (if query.recursive then [1, 0] else [0, 0]) ++ [0, 1, 0, 0, 0, 0, 0, 0] ++
    wire query.q ++ query.qtype ++ dnsCIn

/-- The octets of `d->query`, `querylen` of them. -/
def Query.octets (query : Query) : Bytes := be16 (dnsDomainLength query.q + 16) ++ query.message

/-- A socket, with what the program has sent over it, and what it has read if it is a TCP socket. -/
structure Socket where
  tcp : Bool
  server : Bytes
  sent : Bytes
  heard : Bytes

/-- `struct dns_transmit`; of `packet`, what has been filled. -/
structure DnsTransmit where
  query : Option Query
  packet : Option Bytes
  packetlen : Nat
  s1 : Option Socket
  tcpstate : Nat
  udploop : Nat
  curserver : Nat
  deadline : Nat
  pos : Nat
  servers : Bytes
  qtype : Bytes

/-- What the calls for one server come to: the identifier that is drawn, and whether there is a socket,
`randombind` finds a port, the server is connected, or is being connected, and the whole datagram is
sent. -/
structure Attempt where
  id : UInt8 × UInt8
  socket : Bool
  bound : Bool
  connected : Bool
  inprogress : Bool
  sent : Bool
  now : Nat

/-- An attempt for each round and server. -/
abbrev Net := Nat → Nat → Attempt

def serverwantstcp (buf : Bytes) : Bool :=
  match dnsPacketCopy buf 0 12 with
  | none => true
  | some (out, _) => out.getD 2 0 &&& 2 ≠ 0

def serverfailed (buf : Bytes) : Bool :=
  match dnsPacketCopy buf 0 12 with
  | none => true
  | some (out, _) => out.getD 3 0 &&& 15 ≠ 0 ∧ out.getD 3 0 &&& 15 ≠ 3

/-- `irrelevant`; `named` says whether there is memory for the packet's name. -/
def irrelevant (qtype : Bytes) (query : Query) (buf : Bytes) (named : Bool) : Bool :=
  match dnsPacketCopy buf 0 12 with
  | none => true
  | some (out, pos) =>
    if out.take 2 ≠ [query.id.1, query.id.2] then true
    else if out.getD 4 0 ≠ 0 then true
    else if out.getD 5 0 ≠ 1 then true
    else if ¬ named then true
    else
      match dnsPacketGetname buf pos with
      | none => true
      | some (dn, pos) =>
        if ¬ dnsDomainEqual dn query.q then true
        else
          match dnsPacketCopy buf pos 4 with
          | none => true
          | some (out, _) => out.take 2 ≠ qtype ∨ out.drop 2 ≠ dnsCIn

namespace DnsTransmit

/-- `dns_transmit_free` -/
def free (d : DnsTransmit) : DnsTransmit := { d with query := none, s1 := none, packet := none }

def server (d : DnsTransmit) : Bytes := (d.servers.drop (16 * d.curserver)).take 16

def timeouts (udploop : Nat) : Nat := [1, 3, 11, 45].getD udploop 0

/-- How a loop over the servers ends: by returning, or behind the last of them. -/
inductive Tried where
  | returned (r : Int) (d : DnsTransmit)
  | exhausted (query : Query) (d : DnsTransmit)

/-- The inner loop of `thisudp`, for so many servers. -/
def eachUdp (net : Net) : Nat → Query → DnsTransmit → Tried
  | 0, query, d => .exhausted query d
  | n + 1, query, d =>
    if d.server = Dnscache.v6any then eachUdp net n query { d with curserver := d.curserver + 1 }
    else
      let a := net d.udploop d.curserver
      let query := { query with id := a.id }
      if ¬ a.socket then .returned (-1) d.free
      else if ¬ a.bound then .returned (-1) d.free
      else if a.connected ∧ a.sent then
        .returned 0 { d with
          query := some query
          s1 := some ⟨false, d.server, query.message, []⟩
          deadline := a.now + timeouts d.udploop
          tcpstate := 0 }
      else eachUdp net n query { d with curserver := d.curserver + 1 }

/-- The outer loop of `thisudp`, for so many rounds. -/
def udpRounds (net : Net) : Nat → Query → DnsTransmit → Int × DnsTransmit
  | 0, _, d => (-1, d.free)
  | n + 1, query, d =>
    match eachUdp net (16 - d.curserver) query d with
    | .returned r d => (r, d)
    | .exhausted query d => udpRounds net n query { d with udploop := d.udploop + 1, curserver := 0 }

def thisudp (net : Net) (query : Query) (d : DnsTransmit) : Int × DnsTransmit :=
  udpRounds net (4 - d.udploop) query { d with s1 := none }

def firstudp (net : Net) (query : Query) (d : DnsTransmit) : Int × DnsTransmit :=
  thisudp net query { d with curserver := 0 }

def nextudp (net : Net) (query : Query) (d : DnsTransmit) : Int × DnsTransmit :=
  thisudp net query { d with curserver := d.curserver + 1 }

/-- The loop of `thistcp`, for so many servers. -/
def eachTcp (net : Net) : Nat → Query → DnsTransmit → Int × DnsTransmit
  | 0, _, d => (-1, d.free)
  | n + 1, query, d =>
    if d.server = Dnscache.v6any then eachTcp net n query { d with curserver := d.curserver + 1 }
    else
      let a := net d.udploop d.curserver
      let query := { query with id := a.id }
      if ¬ a.socket then (-1, d.free)
      else if ¬ a.bound then (-1, d.free)
      else
        let d := { d with deadline := a.now + 10 }
        if a.connected then
          (0, { d with
            query := some query
            s1 := some ⟨true, d.server, [], []⟩
            pos := 0
            tcpstate := 2 })
        else if a.inprogress then
          (0, { d with query := some query, s1 := some ⟨true, d.server, [], []⟩, tcpstate := 1 })
        else eachTcp net n query { d with curserver := d.curserver + 1 }

def thistcp (net : Net) (query : Query) (d : DnsTransmit) : Int × DnsTransmit :=
  eachTcp net (16 - d.curserver) query { d with s1 := none, packet := none }

def firsttcp (net : Net) (query : Query) (d : DnsTransmit) : Int × DnsTransmit :=
  thistcp net query { d with curserver := 0 }

def nexttcp (net : Net) (query : Query) (d : DnsTransmit) : Int × DnsTransmit :=
  thistcp net query { d with curserver := d.curserver + 1 }

/-- `dns_transmit_start`; `memory` is for the query. -/
def start (d : DnsTransmit) (servers : Bytes) (recursive : Bool) (q : Name) (qtype : Bytes)
    (two : qtype.length = 2) (memory : Bool) (net : Net) : Int × DnsTransmit :=
  if ¬ memory then (-1, d.free)
  else
    let query : Query := ⟨(0, 0), recursive, q, qtype, two⟩
    let d := { d.free with
      query := some query
      qtype := qtype
      servers := servers
      udploop := if recursive then 1 else 0 }
    if dnsDomainLength q + 16 > 512 ∨ qtype = dnsTAny then d.firsttcp net query
    else d.firstudp net query

end DnsTransmit

/-- What `dns_transmit_get` finds: whether the socket is reported, the time, and what calls made for it
come to. -/
structure Io where
  revents : Bool
  stamp : Nat
  /-- What is there to be received, or none where that fails. -/
  received : Option Bytes
  /-- Whether `recv` fails for a refused connection. -/
  refused : Bool
  /-- `socket_connected` -/
  connected : Bool
  /-- `write` -/
  written : Int
  /-- Memory for the packet, and for the name of its question. -/
  memory : Bool
  named : Bool
  now : Nat
  net : Net

/-- What `read` or `recv` gives when there is room for so many octets. -/
def Io.read (io : Io) (n : Nat) : Bytes := (io.received.getD []).take n

namespace DnsTransmit

/-- State 0: the query has been sent over UDP. -/
def getUdp (d : DnsTransmit) (query : Query) (io : Io) : Int × DnsTransmit :=
  let buf := io.read 4097
  if buf = [] then
    if io.refused ∧ d.udploop = 2 then (0, d) else d.nextudp io.net query
  else if buf.length + 1 > 4097 then (0, d)
  else if irrelevant d.qtype query buf io.named then (0, d)
  else if serverwantstcp buf then d.firsttcp io.net query
  else if serverfailed buf then if d.udploop = 2 then (0, d) else d.nextudp io.net query
  else if ¬ io.memory then (-1, { d with s1 := none, packetlen := buf.length }.free)
  else (1, { d with s1 := none, packetlen := buf.length, packet := some buf, query := none })

/-- State 2: so much of the query is written as the connection takes. -/
def getWrite (d : DnsTransmit) (query : Query) (sock : Socket) (io : Io) : Int × DnsTransmit :=
  if io.written ≤ 0 then d.nexttcp io.net query
  else
    let r := min io.written.toNat (query.octets.length - d.pos)
    let sock := { sock with sent := sock.sent ++ (query.octets.drop d.pos).take r }
    let d := { d with pos := d.pos + r, s1 := some sock }
    if d.pos = query.octets.length then (0, { d with deadline := io.now + 10, tcpstate := 3 })
    else (0, d)

/-- State 3: the first octet of the packet's length. -/
def getFirst (d : DnsTransmit) (query : Query) (sock : Socket) (io : Io) : Int × DnsTransmit :=
  match io.read 1 with
  | [] => d.nexttcp io.net query
  | ch :: _ =>
    (0, { d with
      s1 := some { sock with heard := sock.heard ++ [ch] }
      packetlen := ch.toNat
      tcpstate := 4 })

/-- State 4: the second one. -/
def getSecond (d : DnsTransmit) (query : Query) (sock : Socket) (io : Io) : Int × DnsTransmit :=
  match io.read 1 with
  | [] => d.nexttcp io.net query
  | ch :: _ =>
    let d := { d with
      s1 := some { sock with heard := sock.heard ++ [ch] }
      packetlen := d.packetlen * 256 + ch.toNat
      tcpstate := 5
      pos := 0 }
    if ¬ io.memory then (-1, d.free) else (0, { d with packet := some [] })

/-- State 5: the packet, of which `packet` is there. -/
def getPacket (d : DnsTransmit) (query : Query) (sock : Socket) (packet : Bytes) (io : Io) :
    Int × DnsTransmit :=
  match io.read (d.packetlen - d.pos) with
  | [] => d.nexttcp io.net query
  | ch :: s =>
    let d := { d with
      s1 := some { sock with heard := sock.heard ++ ch :: s }
      packet := some (packet ++ ch :: s)
      pos := d.pos + (s.length + 1) }
    if d.pos < d.packetlen then (0, d)
    else
      let d := { d with s1 := none }
      if irrelevant d.qtype query (packet ++ ch :: s) io.named then d.nexttcp io.net query
      else if serverwantstcp (packet ++ ch :: s) then d.nexttcp io.net query
      else if serverfailed (packet ++ ch :: s) then d.nexttcp io.net query
      else (1, { d with query := none })

/-- `dns_transmit_get`. To use a query, a socket or a packet that is not there is no result. -/
def get (d : DnsTransmit) (io : Io) : Option (Int × DnsTransmit) := do
  let query ← d.query
  let sock ← d.s1
  if ¬ io.revents then
    if io.stamp < d.deadline then some (0, d)
    else if d.tcpstate = 0 then d.nextudp io.net query
    else d.nexttcp io.net query
  else
    match d.tcpstate with
    | 0 => d.getUdp query io
    | 1 =>
      if ¬ io.connected then d.nexttcp io.net query
      else some (0, { d with pos := 0, tcpstate := 2 })
    | 2 => d.getWrite query sock io
    | 3 => d.getFirst query sock io
    | 4 => d.getSecond query sock io
    | 5 => do
      let packet ← d.packet
      d.getPacket query sock packet io
    | _ => some (0, d)

/-- The calls that return 0, one behind the other. -/
def run (d : DnsTransmit) : List Io → Option DnsTransmit
  | [] => some d
  | io :: ios =>
    match d.get io with
    | some (0, d) => d.run ios
    | _ => none

end DnsTransmit

/-! ## Relevant packets -/

/-- A packet that answers a query: the header is there, with the query's identifier, one question, an
rcode of 0 or 3 and no TC bit, and the question is the query's, up to the case of letters. -/
structure Answers (query : Query) (packet : Bytes) : Prop where
  header : 12 ≤ packet.length
  id : packet.take 2 = [query.id.1, query.id.2]
  one : packet[4]? = some 0 ∧ packet[5]? = some 1
  rcode : packet.getD 3 0 &&& 15 = 0 ∨ packet.getD 3 0 &&& 15 = 3
  tc : packet.getD 2 0 &&& 2 = 0
  question : ∃ dn pos, dnsPacketGetname packet 12 = some (dn, pos) ∧
    lower (wire dn) = lower (wire query.q) ∧ query.qtype ++ dnsCIn <+: packet.drop pos

/-- The first twelve octets, as `dns_packet_copy` copies them. -/
theorem header_copy {buf out : Bytes} {pos : Nat}
    (copied : dnsPacketCopy buf 0 12 = some (out, pos)) :
    pos = 12 ∧ 12 ≤ buf.length ∧ out.take 2 = buf.take 2 ∧ ∀ i < 12, out[i]? = buf[i]? := by
  obtain ⟨rfl, long, front⟩ := dnsPacketCopy_eq_some.mp copied
  rw [List.drop_zero] at front
  obtain ⟨rest, rfl⟩ := front
  refine ⟨rfl, ?_, ?_, fun i hi => ?_⟩
  · rw [List.length_append, long]
    exact Nat.le_add_right _ _
  · rw [List.take_append_of_le_length (by omega)]
  · rw [List.getElem?_append_left (by omega)]

theorem check_passed {p : Prop} [Decidable p] {b : Bool} (h : (if p then true else b) = false) :
    ¬ p ∧ b = false := by
  by_cases hp : p
  · rw [if_pos hp] at h
    cases h
  · rw [if_neg hp] at h
    exact ⟨hp, h⟩

/-- **What passes the three checks** answers the query. -/
theorem answers_of_checks {query : Query} {buf : Bytes} {named : Bool}
    (relevant : irrelevant query.qtype query buf named = false)
    (whole : serverwantstcp buf = false) (succeeded : serverfailed buf = false) :
    Answers query buf := by
  unfold irrelevant at relevant
  unfold serverwantstcp at whole
  unfold serverfailed at succeeded
  cases copied : dnsPacketCopy buf 0 12 with
  | none =>
    rw [copied] at whole
    cases whole
  | some header =>
    obtain ⟨out, pos⟩ := header
    obtain ⟨rfl, long, front, same⟩ := header_copy copied
    have octet (i : Nat) (hi : i < 12) : out.getD i 0 = buf.getD i 0 := by
      rw [List.getD_eq_getElem?_getD, List.getD_eq_getElem?_getD, same i hi]
    have inside (i : Nat) (hi : i < 12) : buf[i]? = some (buf.getD i 0) := by
      rw [List.getD_eq_getElem?_getD, List.getElem?_eq_getElem (by omega)]
      rfl
    rw [copied] at relevant whole succeeded
    simp only [octet 2 (by decide), decide_eq_false_iff_not, not_not] at whole
    simp only [octet 3 (by decide), decide_eq_false_iff_not, not_and_or, not_not] at succeeded
    simp only [front, octet 4 (by decide), octet 5 (by decide)] at relevant
    obtain ⟨id, relevant⟩ := check_passed relevant
    obtain ⟨high, relevant⟩ := check_passed relevant
    obtain ⟨low, relevant⟩ := check_passed relevant
    obtain ⟨_, relevant⟩ := check_passed relevant
    have one : buf[4]? = some 0 ∧ buf[5]? = some 1 :=
      ⟨not_not.mp high ▸ inside 4 (by decide), not_not.mp low ▸ inside 5 (by decide)⟩
    refine ⟨long, not_not.mp id, one, succeeded, whole, ?_⟩
    cases walked : dnsPacketGetname buf 12 with
    | none =>
      rw [walked] at relevant
      cases relevant
    | some name =>
      obtain ⟨dn, pos⟩ := name
      rw [walked] at relevant
      obtain ⟨equal, relevant⟩ := check_passed relevant
      refine ⟨dn, pos, rfl, ?_, ?_⟩
      · have both := not_not.mp equal
        rw [dnsDomainEqual, Bool.and_eq_true] at both
        exact of_decide_eq_true both.2
      · cases fields : dnsPacketCopy buf pos 4 with
        | none =>
          rw [fields] at relevant
          cases relevant
        | some field =>
          obtain ⟨out, stop⟩ := field
          obtain ⟨rfl, four, there⟩ := dnsPacketCopy_eq_some.mp fields
          rw [fields] at relevant
          have types := of_decide_eq_false relevant
          rw [not_or, not_not, not_not] at types
          rwa [← types.1, ← types.2, List.take_append_drop]

/-! ## A transmission under way -/

theorem message_length (query : Query) :
    query.message.length = dnsDomainLength query.q + 16 := by
  have header : (if query.recursive then [1, 0] else [0, 0] : Bytes).length = 2 := by split <;> rfl
  unfold Query.message dnsDomainLength
  simp only [List.length_append, header, query.two, show dnsCIn.length = 2 from rfl, List.length_cons,
    List.length_nil]
  omega

/-- Over TCP, the query goes behind its length. -/
theorem octets_eq (query : Query) : query.octets = frame query.message := by
  rw [Query.octets, frame, message_length]

/-- The query asks what it was made for. -/
def Query.Asks (recursive : Bool) (q : Name) (qtype : Bytes) (query : Query) : Prop :=
  query.recursive = recursive ∧ query.q = q ∧ query.qtype = qtype

/-- What has been sent over the socket and read, in each state. -/
inductive Stage (query : Query) (d : DnsTransmit) : Socket → Prop
  | udp (server : Bytes) : d.tcpstate = 0 → Stage query d ⟨false, server, query.message, []⟩
  | connecting (server : Bytes) : d.tcpstate = 1 → Stage query d ⟨true, server, [], []⟩
  | sending (server : Bytes) : d.tcpstate = 2 → d.pos < query.octets.length →
      Stage query d ⟨true, server, query.octets.take d.pos, []⟩
  | first (server : Bytes) : d.tcpstate = 3 → Stage query d ⟨true, server, query.octets, []⟩
  | second (server : Bytes) {hi : UInt8} : d.tcpstate = 4 → d.packetlen = hi.toNat →
      Stage query d ⟨true, server, query.octets, [hi]⟩
  | packet (server : Bytes) {hi lo : UInt8} {packet : Bytes} : d.tcpstate = 5 →
      d.packetlen = announced hi lo → d.packet = some packet → d.pos = packet.length →
      Stage query d ⟨true, server, query.octets, hi :: lo :: packet⟩

section Underway

variable (recursive : Bool) (q : Name) (qtype : Bytes)

/-- A query is on its way over a socket. -/
def Underway (d : DnsTransmit) : Prop :=
  d.qtype = qtype ∧ ∃ query sock, d.query = some query ∧ d.s1 = some sock ∧
    query.Asks recursive q qtype ∧ Stage query d sock

/-- Behind a call that sends the query: it is on its way, or the call has failed. -/
def Sends (r : Int × DnsTransmit) : Prop := r.1 = -1 ∨ r.1 = 0 ∧ Underway recursive q qtype r.2

/-- `d₁` has received the packet of `d₂`, which answers the query that was sent over the socket: it is
the datagram that was there, or all that was read over the connection, behind its length. -/
def Answered (d₁ : DnsTransmit) (io : Io) (d₂ : DnsTransmit) : Prop :=
  ∃ query sock packet, d₁.query = some query ∧ d₁.s1 = some sock ∧ d₂.packet = some packet ∧
    d₂.packetlen = packet.length ∧ query.Asks recursive q qtype ∧ Answers query packet ∧
    if sock.tcp then
      sock.sent = frame query.message ∧ sock.heard ++ io.read (d₁.packetlen - d₁.pos) = frame packet
    else sock.sent = query.message ∧ io.received = some packet ∧ packet.length ≤ 4096

section Sending

variable {recursive q qtype} {net : Net} {query : Query} (asks : query.Asks recursive q qtype)
  {d : DnsTransmit} (typed : d.qtype = qtype)
include asks typed

theorem eachUdp_sends (n : Nat) :
    match d.eachUdp net n query with
    | .returned r d' => Sends recursive q qtype (r, d')
    | .exhausted query' d' => query'.Asks recursive q qtype ∧ d'.qtype = qtype := by
  induction n generalizing query d with
  | zero => exact ⟨asks, typed⟩
  | succ n ih =>
    have drawn (id : UInt8 × UInt8) : Query.Asks recursive q qtype { query with id := id } := asks
    rw [DnsTransmit.eachUdp]
    by_cases unset : d.server = Dnscache.v6any
    · rw [if_pos unset]
      exact ih asks typed
    · rw [if_neg unset]
      dsimp only
      generalize net d.udploop d.curserver = a
      by_cases socket : ¬ a.socket
      · rw [if_pos socket]
        exact .inl rfl
      · rw [if_neg socket]
        by_cases bound : ¬ a.bound
        · rw [if_pos bound]
          exact .inl rfl
        · rw [if_neg bound]
          by_cases sent : a.connected ∧ a.sent
          · rw [if_pos sent]
            exact .inr ⟨rfl, typed, _, _, rfl, rfl, drawn a.id, .udp _ rfl⟩
          · rw [if_neg sent]
            exact ih (drawn a.id) typed

theorem udpRounds_sends (n : Nat) : Sends recursive q qtype (d.udpRounds net n query) := by
  induction n generalizing query d with
  | zero => exact .inl rfl
  | succ n ih =>
    have tried := @eachUdp_sends _ _ _ net _ asks _ typed (16 - d.curserver)
    rw [DnsTransmit.udpRounds]
    cases result : d.eachUdp net (16 - d.curserver) query with
    | returned r d' =>
      rw [result] at tried
      exact tried
    | exhausted query' d' =>
      rw [result] at tried
      exact ih tried.1 tried.2

theorem nextudp_sends : Sends recursive q qtype (d.nextudp net query) := by
  refine udpRounds_sends asks ?_ _
  exact typed

theorem firstudp_sends : Sends recursive q qtype (d.firstudp net query) := by
  refine udpRounds_sends asks ?_ _
  exact typed

theorem eachTcp_sends (n : Nat) : Sends recursive q qtype (d.eachTcp net n query) := by
  induction n generalizing query d with
  | zero => exact .inl rfl
  | succ n ih =>
    rw [DnsTransmit.eachTcp]
    split
    · exact ih asks typed
    · have drawn (id : UInt8 × UInt8) : Query.Asks recursive q qtype { query with id := id } := asks
      have nonempty (query : Query) : 0 < query.octets.length := Nat.succ_pos _
      dsimp only
      split
      · exact .inl rfl
      · split
        · exact .inl rfl
        · split
          · exact .inr ⟨rfl, typed, _, _, rfl, rfl, drawn _, .sending _ rfl (nonempty _)⟩
          · split
            · exact .inr ⟨rfl, typed, _, _, rfl, rfl, drawn _, .connecting _ rfl⟩
            · exact ih (drawn _) typed

theorem nexttcp_sends : Sends recursive q qtype (d.nexttcp net query) := by
  refine eachTcp_sends asks ?_ _
  exact typed

theorem firsttcp_sends : Sends recursive q qtype (d.firsttcp net query) := by
  refine eachTcp_sends asks ?_ _
  exact typed

end Sending

/-- **`dns_transmit_start`** sends the query, or fails. -/
theorem start_sends (d : DnsTransmit) (servers : Bytes) (two : qtype.length = 2) (memory : Bool)
    (net : Net) : Sends recursive q qtype (d.start servers recursive q qtype two memory net) := by
  unfold DnsTransmit.start
  split
  · exact .inl rfl
  · have asks : Query.Asks recursive q qtype ⟨(0, 0), recursive, q, qtype, two⟩ := ⟨rfl, rfl, rfl⟩
    dsimp only
    split
    · exact firsttcp_sends asks rfl
    · exact firstudp_sends asks rfl

/-! ## What one call does -/

/-- What a call of `dns_transmit_get` comes to: the query is on its way, or the call has failed, or
there is an answer. -/
def Goes (d : DnsTransmit) (io : Io) (r : Int × DnsTransmit) : Prop :=
  Sends recursive q qtype r ∨ r.1 = 1 ∧ Answered recursive q qtype d io r.2

section Calls

variable {recursive q qtype} {query : Query} (asks : query.Asks recursive q qtype) {d : DnsTransmit}
  (typed : d.qtype = qtype) (io : Io) {server : Bytes}

theorem read_length (n : Nat) : (io.read n).length ≤ n := List.length_take_le _ _

/-- A datagram that did not fill the buffer is there as a whole. -/
theorem read_datagram (some_read : io.read 4097 ≠ []) (short : ¬ (io.read 4097).length + 1 > 4097) :
    io.received = some (io.read 4097) ∧ (io.read 4097).length ≤ 4096 := by
  unfold Io.read at some_read short ⊢
  cases received : io.received with
  | none =>
    rw [received] at some_read
    exact absurd List.take_nil some_read
  | some s =>
    rw [received] at short
    rw [Option.getD_some, List.length_take] at short
    rw [Option.getD_some, List.take_of_length_le (by omega)]
    exact ⟨rfl, by omega⟩

include asks typed

theorem getUdp_goes (there : d.query = some query)
    (socket : d.s1 = some ⟨false, server, query.message, []⟩) (state : d.tcpstate = 0) :
    Goes recursive q qtype d io (d.getUdp query io) := by
  have still : Goes recursive q qtype d io (0, d) :=
    .inl (.inr ⟨rfl, typed, query, _, there, socket, asks, .udp server state⟩)
  have next : Goes recursive q qtype d io (d.nextudp io.net query) := .inl (nextudp_sends asks typed)
  unfold DnsTransmit.getUdp
  dsimp only
  by_cases nothing : io.read 4097 = []
  · rw [if_pos nothing]
    split
    · exact still
    · exact next
  · rw [if_neg nothing]
    by_cases long : (io.read 4097).length + 1 > 4097
    · rw [if_pos long]
      exact still
    · rw [if_neg long]
      cases foreign : irrelevant d.qtype query (io.read 4097) io.named with
      | true => exact still
      | false =>
        rw [if_neg Bool.false_ne_true]
        cases cut : serverwantstcp (io.read 4097) with
        | true => exact .inl (firsttcp_sends asks typed)
        | false =>
          rw [if_neg Bool.false_ne_true]
          cases failed : serverfailed (io.read 4097) with
          | true =>
            rw [if_pos rfl]
            split
            · exact still
            · exact next
          | false =>
            rw [if_neg Bool.false_ne_true]
            split
            · exact .inl (.inl rfl)
            · obtain ⟨received, short⟩ := read_datagram io nothing long
              rw [typed, ← asks.2.2] at foreign
              exact .inr ⟨rfl, query, _, _, there, socket, rfl, rfl, asks,
                answers_of_checks foreign cut failed, rfl, received, short⟩

theorem getWrite_goes (there : d.query = some query) (state : d.tcpstate = 2) (more : d.pos < query.octets.length) :
    Goes recursive q qtype d io
      (d.getWrite query ⟨true, server, query.octets.take d.pos, []⟩ io) := by
  unfold DnsTransmit.getWrite
  by_cases refused : io.written ≤ 0
  · rw [if_pos refused]
    exact .inl (nexttcp_sends asks typed)
  · rw [if_neg refused]
    dsimp only
    rw [← List.take_add]
    by_cases done : d.pos + min io.written.toNat (query.octets.length - d.pos) = query.octets.length
    · rw [if_pos done]
      refine .inl (.inr ⟨rfl, typed, query, _, there, rfl, asks, ?_⟩)
      rw [done, List.take_length]
      exact .first server rfl
    · rw [if_neg done]
      refine .inl (.inr ⟨rfl, typed, query, _, there, rfl, asks, .sending server state ?_⟩)
      show d.pos + _ < _
      omega

theorem getFirst_goes (there : d.query = some query) :
    Goes recursive q qtype d io (d.getFirst query ⟨true, server, query.octets, []⟩ io) := by
  unfold DnsTransmit.getFirst
  split
  · exact .inl (nexttcp_sends asks typed)
  · exact .inl (.inr ⟨rfl, typed, query, _, there, rfl, asks, .second server rfl rfl⟩)

theorem getSecond_goes (there : d.query = some query) {hi : UInt8} (first : d.packetlen = hi.toNat) :
    Goes recursive q qtype d io (d.getSecond query ⟨true, server, query.octets, [hi]⟩ io) := by
  unfold DnsTransmit.getSecond
  split
  · exact .inl (nexttcp_sends asks typed)
  · rename_i lo s read
    dsimp only
    split
    · exact .inl (.inl rfl)
    · refine .inl (.inr ⟨rfl, typed, query, _, there, rfl, asks, ?_⟩)
      refine @Stage.packet _ _ server hi lo [] rfl ?_ rfl rfl
      show d.packetlen * 256 + lo.toNat = _
      rw [first]
      rfl

theorem getPacket_goes {hi lo : UInt8} {packet : Bytes} (there : d.query = some query)
    (socket : d.s1 = some ⟨true, server, query.octets, hi :: lo :: packet⟩) (state : d.tcpstate = 5)
    (len : d.packetlen = announced hi lo) (pos : d.pos = packet.length) :
    Goes recursive q qtype d io
      (d.getPacket query ⟨true, server, query.octets, hi :: lo :: packet⟩ packet io) := by
  have short := read_length io (d.packetlen - d.pos)
  unfold DnsTransmit.getPacket
  cases read : io.read (d.packetlen - d.pos) with
  | nil => exact .inl (nexttcp_sends asks typed)
  | cons ch s =>
    rw [read, List.length_cons] at short
    dsimp only
    by_cases unfinished : d.pos + (s.length + 1) < d.packetlen
    · rw [if_pos unfinished]
      refine .inl (.inr ⟨rfl, typed, query, _, there, rfl, asks, ?_⟩)
      refine @Stage.packet _ _ server hi lo (packet ++ ch :: s) state len rfl ?_
      rw [List.length_append, ← pos]
      rfl
    · have full : (packet ++ ch :: s).length = d.packetlen := by
        rw [List.length_append, List.length_cons, ← pos]
        omega
      have next : ∀ d' : DnsTransmit, d'.qtype = qtype → Goes recursive q qtype d io (d'.nexttcp io.net query) :=
        fun d' typed' => .inl (nexttcp_sends asks typed')
      rw [if_neg unfinished]
      cases foreign : irrelevant d.qtype query (packet ++ ch :: s) io.named with
      | true => exact next _ typed
      | false =>
        rw [if_neg Bool.false_ne_true]
        cases cut : serverwantstcp (packet ++ ch :: s) with
        | true => exact next _ typed
        | false =>
          rw [if_neg Bool.false_ne_true]
          cases failed : serverfailed (packet ++ ch :: s) with
          | true => exact next _ typed
          | false =>
            rw [typed, ← asks.2.2] at foreign
            refine .inr ⟨rfl, query, _, packet ++ ch :: s, there, socket, rfl, full.symm, asks,
              answers_of_checks foreign cut failed, octets_eq query, ?_⟩
            rw [read, frame_eq (full.trans len)]
            rfl

end Calls

variable {recursive q qtype}

/-- **One call**: a query that is on its way stays so, or comes to its end, with an answer or
without; and nothing is used that is not there. -/
theorem get_goes {d : DnsTransmit} (underway : Underway recursive q qtype d) (io : Io) :
    ∃ r, d.get io = some r ∧ Goes recursive q qtype d io r := by
  obtain ⟨typed, query, sock, there, socket, asks, stage⟩ := underway
  have still : Underway recursive q qtype d := ⟨typed, query, sock, there, socket, asks, stage⟩
  have bound : d.get io = if ¬ io.revents then
      if io.stamp < d.deadline then some (0, d)
      else if d.tcpstate = 0 then some (d.nextudp io.net query)
      else some (d.nexttcp io.net query)
    else
      match d.tcpstate with
      | 0 => some (d.getUdp query io)
      | 1 =>
        if ¬ io.connected then some (d.nexttcp io.net query)
        else some (0, { d with pos := 0, tcpstate := 2 })
      | 2 => some (d.getWrite query sock io)
      | 3 => some (d.getFirst query sock io)
      | 4 => some (d.getSecond query sock io)
      | 5 => do
        let packet ← d.packet
        some (d.getPacket query sock packet io)
      | _ => some (0, d) := by
    unfold DnsTransmit.get
    rw [there, socket]
    rfl
  rw [bound]
  by_cases late : ¬ io.revents
  · rw [if_pos late]
    split
    · exact ⟨_, rfl, .inl (.inr ⟨rfl, still⟩)⟩
    · split
      · exact ⟨_, rfl, .inl (nextudp_sends asks typed)⟩
      · exact ⟨_, rfl, .inl (nexttcp_sends asks typed)⟩
  · rw [if_neg late]
    cases stage with
    | udp server state =>
      rw [state]
      exact ⟨_, rfl, getUdp_goes asks typed io there socket state⟩
    | connecting server state =>
      rw [state]
      by_cases refused : ¬ io.connected
      · exact ⟨_, if_pos refused, .inl (nexttcp_sends asks typed)⟩
      · exact ⟨_, if_neg refused, .inl (.inr ⟨rfl, typed, query, _, there, socket, asks,
          .sending server rfl (Nat.succ_pos _)⟩)⟩
    | sending server state more =>
      rw [state]
      exact ⟨_, rfl, getWrite_goes asks typed io there state more⟩
    | first server state =>
      rw [state]
      exact ⟨_, rfl, getFirst_goes asks typed io there⟩
    | second server state first =>
      rw [state]
      exact ⟨_, rfl, getSecond_goes asks typed io there first⟩
    | packet server state len filled pos =>
      rw [state, filled]
      exact ⟨_, rfl, getPacket_goes asks typed io there socket state len pos⟩

theorem run_underway {d d₁ : DnsTransmit} (underway : Underway recursive q qtype d) {ios : List Io}
    (pending : d.run ios = some d₁) : Underway recursive q qtype d₁ := by
  induction ios generalizing d with
  | nil =>
    cases pending
    exact underway
  | cons io ios ih =>
    obtain ⟨⟨r, d'⟩, got, goes⟩ := get_goes underway io
    rw [DnsTransmit.run, got] at pending
    rcases goes with (failed | ⟨zero, next⟩) | ⟨one, -⟩
    · cases (show r = -1 from failed)
      cases pending
    · cases (show r = 0 from zero)
      exact ih next pending
    · cases (show r = 1 from one)
      cases pending

/-- **Only relevant answers leave.** When `dns_transmit_get` returns 1, behind any calls that returned
0, the packet answers the query that was sent over the socket, and it is one datagram, or all that was
read over the connection behind its length. -/
theorem answered {d d₀ d₁ d₂ : DnsTransmit} {servers : Bytes} {two : qtype.length = 2}
    {memory : Bool} {net : Net} {ios : List Io} {io : Io}
    (started : d.start servers recursive q qtype two memory net = (0, d₀))
    (pending : d₀.run ios = some d₁) (got : d₁.get io = some (1, d₂)) :
    Answered recursive q qtype d₁ io d₂ := by
  have sends := @start_sends recursive q qtype d servers two memory net
  rw [started] at sends
  obtain ⟨-, underway⟩ := sends.resolve_left (show (0 : Int) ≠ -1 by decide)
  obtain ⟨r, result, goes⟩ := get_goes (run_underway underway pending) io
  rw [got] at result
  cases result
  rcases goes with (failed | ⟨zero, -⟩) | ⟨-, answer⟩
  · cases failed
  · cases zero
  · exact answer

end Underway

/-- Every call comes off at once, and the identifiers are the server's number and the round. -/
def prompt : Net := fun udploop curserver =>
  ⟨(.ofNat curserver, .ofNat udploop), true, true, true, false, true, 0⟩

def promptIo (received : Bytes) : Io :=
  ⟨true, 0, some received, false, true, 100, true, true, 0, prompt⟩

/-- An answer to a question for the root's addresses, from the third server: cut short or whole. -/
def rootAnswer (flags : UInt8) : Bytes := [2, 0, flags, 0, 0, 1, 0, 0, 0, 0, 0, 0, 0, 0, 1, 0, 1]

def thirdServer : Bytes := List.replicate 32 0 ++ List.replicate 16 1 ++ List.replicate 208 0

def untouched : DnsTransmit := ⟨none, none, 0, none, 0, 0, 0, 0, 0, [], []⟩

/-- The state behind the calls, and the last call. -/
def behindTcp : Option DnsTransmit :=
  (untouched.start thirdServer false [] [0, 1] rfl true prompt).2.run
    [promptIo (rootAnswer 130), promptIo [], promptIo [0], promptIo [17],
      promptIo ((rootAnswer 128).take 5)]

set_option maxRecDepth 4000 in
/-- A datagram that is cut short, and the answer over TCP in four pieces. -/
theorem answered_tcp : ∃ d₁ d₂, behindTcp = some d₁ ∧
    d₁.get (promptIo ((rootAnswer 128).drop 5)) = some (1, d₂) ∧
      d₂.packet = some (rootAnswer 128) ∧
      Answered false [] [0, 1] d₁ (promptIo ((rootAnswer 128).drop 5)) d₂ := by
  obtain ⟨d₁, pending⟩ : ∃ d₁, behindTcp = some d₁ := ⟨_, rfl⟩
  have started : untouched.start thirdServer false [] [0, 1] rfl true prompt =
      (0, (untouched.start thirdServer false [] [0, 1] rfl true prompt).2) := rfl
  have last : (behindTcp.bind fun d => d.get (promptIo ((rootAnswer 128).drop 5))).map
      (fun r => (r.1, r.2.packet)) = some (1, some (rootAnswer 128)) := rfl
  obtain ⟨⟨r, d₂⟩, got, same⟩ := Option.map_eq_some_iff.mp last
  obtain ⟨rfl, packet⟩ := Prod.mk.inj same
  rw [pending] at got
  exact ⟨d₁, d₂, pending, got, packet, answered started pending got⟩

end TinyDnssec.Transmit
