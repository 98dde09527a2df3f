import TinyDnssec.Base.Framing
import TinyDnssec.Clients

/-!
# dnscache: what comes over a TCP connection

`t_rw` reads as many octets as the state of the connection has use for, and takes what `read` gives
it. Next to the tables of `dnscache.c` this module follows the calls made for one slot: what has been
read over its connection, what `packetquery` was called with, and how long the buffer is that `alloc`
was asked for. Whatever else happens, and however the stream is cut into reads, the queries are the
frames of the octets read (`framing`).

When a query comes, and that its reply arrives, is not established here: a client may wait for ever.
-/

namespace TinyDnssec.Dnscache

open Octets Framing

/-- The calls an event makes for the connection in a slot. -/
def Clients.calls (c : Clients) (j : Fin 20) : Event → List TcpCall
  | .tcp i io => if i = j then (c.tcp i io).run.2 else []
  | _ => []

/-- `t_new` takes the slot, and there is a connection in it. -/
def Clients.Opens (c : Clients) (j : Fin 20) : Event → Prop
  | .connection now accepted => c.tSlot.1 = j ∧ ((c.tNew now accepted).t j).active ≠ 0
  | _ => False

instance (c : Clients) (j : Fin 20) : DecidablePred (c.Opens j) := fun e =>
  match e with
  | .connection _ _ => inferInstanceAs (Decidable (_ ∧ _))
  | .udp .. | .tcp .. | .datagram _ => inferInstanceAs (Decidable False)

/-- The connection in a slot, as an observer of the calls has it. -/
structure Traffic where
  /-- What has been read since the connection was accepted. -/
  read : Bytes
  /-- What `packetquery` was called with. -/
  handed : List Bytes
  /-- How long the buffer is that was allocated last. -/
  room : Nat

/-- What the observer sees of a call. -/
def Traffic.see (w : Traffic) : TcpCall → Traffic
  | .read _ chunk => { w with read := w.read ++ chunk }
  | .alloc len => { w with room := len }
  | .copy _ _ => w
  | .packetquery buf len => { w with handed := w.handed ++ [buf.take len] }

/-- `read` gives no more than it is asked for. -/
def TcpCall.Fair : TcpCall → Prop
  | .read toread chunk => chunk.length ≤ toread
  | _ => True

instance : DecidablePred TcpCall.Fair := fun call =>
  match call with
  | .read toread chunk => inferInstanceAs (Decidable (chunk.length ≤ toread))
  | .alloc _ | .copy _ _ | .packetquery _ _ => inferInstanceAs (Decidable True)

/-- What is copied stays inside the buffer, and a query is all of it, every octet filled. -/
def Traffic.Inside (w : Traffic) : TcpCall → Prop
  | .copy pos s => pos + s.length ≤ w.room
  | .packetquery buf len => buf.length = len ∧ len = w.room
  | _ => True

/-- The program, and the observer of one slot. -/
structure Watched where
  clients : Clients
  traffic : Traffic

def Watched.idle : Watched := ⟨.idle, ⟨[], [], 0⟩⟩

def Watched.step (j : Fin 20) (s : Watched) (e : Event) : Watched where
  clients := s.clients.step e
  traffic :=
    if s.clients.Opens j e then Watched.idle.traffic
    else (s.clients.calls j e).foldl Traffic.see s.traffic

def Watched.Fair (j : Fin 20) (s : Watched) (e : Event) : Prop :=
  ∀ call ∈ s.clients.calls j e, call.Fair

instance (j : Fin 20) (s : Watched) (e : Event) : Decidable (s.Fair j e) :=
  inferInstanceAs (Decidable (∀ call ∈ _, TcpCall.Fair call))

def Watched.Inside (j : Fin 20) (s : Watched) (e : Event) : Prop :=
  Run.Along Traffic.see Traffic.Inside s.traffic (s.clients.calls j e)

/-! ## One slot and the others -/

section Others

variable {c : Clients} {i j : Fin 20} (other : j ≠ i)
include other

theorem setT_other (x : TcpClient) : (c.setT i x).t j = c.t j := Function.update_of_ne other ..

theorem tTimeout_other (now : Nat) : (c.tTimeout i now).t j = c.t j := by
  unfold Clients.tTimeout
  split
  · rfl
  · exact setT_other other _

theorem tClose_other : (c.tClose i).t j = c.t j := by
  unfold Clients.tClose
  split
  · rfl
  · exact (setT_other other _).trans (setT_other other _)

theorem tRespond_other (response : Bytes) (room : Bool) :
    (c.tRespond i response room).run.1.t j = c.t j := by
  unfold Clients.tRespond
  split
  · rfl
  · cases room
    · exact (tClose_other other).trans ((setT_other other _).trans (setT_other other _))
    · exact (setT_other other _).trans ((setT_other other _).trans (setT_other other _))

theorem tLength_other (ch : UInt8) (room : Bool) : (c.tLength i ch room).run.1.t j = c.t j := by
  unfold Clients.tLength
  dsimp only
  split
  · exact (tClose_other other).trans (setT_other other _)
  · cases room
    · exact (tClose_other other).trans (setT_other other _)
    · exact (setT_other other _).trans (setT_other other _)

theorem tQuery_other (q : Question) (io : TcpIo) : (c.tQuery i q io).run.1.t j = c.t j := by
  have started (type : Bytes) : (c.tStarted i type).t j = c.t j := setT_other other _
  rw [c.tQuery_eq i q io]
  rcases queryStart (c.t i).type q.qtype io.start with ⟨type, _ | _ | response⟩
  case failed => exact (tClose_other other).trans (started type)
  case pending => exact (setT_other other _).trans ((setT_other other _).trans (started type))
  case answered => exact (tRespond_other other _ _).trans (started type)

theorem tFill_other (chunk : Bytes) (io : TcpIo) : (c.tFill i chunk io).run.1.t j = c.t j := by
  rw [c.tFill_run i chunk io]
  split
  · exact setT_other other _
  · dsimp only
    split
    · exact (tClose_other other).trans (setT_other other _)
    · exact (tQuery_other other _ _).trans (setT_other other _)

theorem tRw_other (io : TcpIo) : (c.tRw i io).run.1.t j = c.t j := by
  unfold Clients.tRw
  split
  · split
    · exact tClose_other other
    · dsimp only
      split
      · exact (setT_other other _).trans ((setT_other other _).trans (setT_other other _))
      · exact setT_other other _
  · split
    · rfl
    · rcases io.chunk with _ | _ | ⟨ch, chunk⟩
      · exact tClose_other other
      · exact tClose_other other
      · show (WriterT.run (ite _ _ _ : TcpCalls Clients)).1.t j = _
        split
        · cases chunk with
          | nil => exact setT_other other _
          | cons ch chunk => exact (tLength_other other _ _).trans (setT_other other _)
        · split
          · exact tLength_other other _ _
          · exact tFill_other other _ _

theorem tcp_other (io : TcpIo) : (c.tcp i io).run.1.t j = c.t j := by
  have dated : (if io.reported then c.tTimeout i io.now else c).t j = c.t j := by
    split
    · exact tTimeout_other other _
    · rfl
  unfold Clients.tcp
  split
  · rfl
  · generalize (if io.reported then c.tTimeout i io.now else c) = d at dated ⊢
    dsimp only
    split
    · cases io.got with
      | failed => exact (tClose_other other).trans dated
      | pending => exact dated
      | answered response => exact (tRespond_other other _ _).trans dated
    · split
      · exact (tRw_other other io).trans dated
      · exact dated

end Others

theorem uEnd_t (c : Clients) (i : Fin 200) : (c.uEnd i).t = c.t := by
  unfold Clients.uEnd
  split <;> rfl

theorem udp_t (c : Clients) (i : Fin 200) (got : Outcome) : (c.udp i got).t = c.t := by
  unfold Clients.udp
  split
  · rfl
  · cases got with
    | failed => exact uEnd_t c i
    | pending => rfl
    | answered response => exact uEnd_t c i

theorem uNew_t (c : Clients) (a : Arrival) : (c.uNew a).t = c.t := by
  have slot : c.uSlot.2.t = c.t := by
    unfold Clients.uSlot
    split
    · rfl
    · exact uEnd_t c _
  unfold Clients.uNew
  generalize c.uSlot = s at slot
  obtain ⟨i, d⟩ := s
  dsimp only at slot ⊢
  cases a.question with
  | none => exact slot
  | some q =>
    dsimp only
    rw [Clients.uQuery_eq]
    split
    · exact slot
    · rcases queryStart _ q.qtype a.start with ⟨type, _ | _ | response⟩
      · exact (uEnd_t _ _).trans slot
      · exact slot
      · exact (uEnd_t _ _).trans slot

/-! ## The slot itself -/

section Own

variable {c : Clients} {j : Fin 20}

theorem setT_own (x : TcpClient) : (c.setT j x).t j = x := Function.update_self ..

theorem tClose_own : ((c.tClose j).t j).active = 0 := by
  unfold Clients.tClose
  split
  · assumption
  · exact congrArg TcpClient.active (setT_own _)

/-- The calls made for a reply: nothing is read and nothing handed to `packetquery`, and the reply
fits its buffer. -/
def Quiet (calls : List TcpCall) : Prop :=
  ∀ w : Traffic, (calls.foldl Traffic.see w).read = w.read ∧
    (calls.foldl Traffic.see w).handed = w.handed ∧ Run.Along Traffic.see Traffic.Inside w calls

theorem quiet_nil : Quiet [] := fun _ => ⟨rfl, rfl, trivial⟩

theorem tRespond_own (response : Bytes) (room : Bool) :
    (((c.tRespond j response room).run.1.t j).active = 0 ∨
      ((c.tRespond j response room).run.1.t j).state = -1) ∧
      Quiet (c.tRespond j response room).run.2 := by
  unfold Clients.tRespond
  split
  · exact ⟨.inl (by assumption), quiet_nil⟩
  · cases room with
    | false => exact ⟨.inl tClose_own, fun _ => ⟨rfl, rfl, trivial, trivial⟩⟩
    | true =>
      refine ⟨.inr (congrArg TcpClient.state (setT_own _)), fun w => ⟨rfl, rfl, trivial, ?_, ?_, trivial⟩⟩
      · show 0 + 2 ≤ response.length + 2
        omega
      · show 2 + response.length ≤ response.length + 2
        omega

theorem tQuery_own (q : Question) (io : TcpIo) :
    (((c.tQuery j q io).run.1.t j).active = 0 ∨ ((c.tQuery j q io).run.1.t j).state = 0 ∨
      ((c.tQuery j q io).run.1.t j).state = -1) ∧ Quiet (c.tQuery j q io).run.2 := by
  rw [c.tQuery_eq j q io]
  rcases queryStart (c.t j).type q.qtype io.start with ⟨type, _ | _ | response⟩
  case failed => exact ⟨.inl tClose_own, quiet_nil⟩
  case pending => exact ⟨.inr (.inl (congrArg TcpClient.state (setT_own _))), quiet_nil⟩
  case answered => exact (tRespond_own response io.replyRoom).imp_left (.imp_right .inr)

/-- `t_rw` with a length: the connection is closed, or there is a buffer of that length. -/
theorem tLength_own (lo : UInt8) (room : Bool) :
    ((c.tLength j lo room).run.1.t j).active = 0 ∧
        ((c.tLength j lo room).run.2 = [] ∨
          (c.tLength j lo room).run.2 = [.alloc ((c.t j).len + lo.toNat)]) ∨
      12 ≤ (c.t j).len + lo.toNat ∧
        (c.tLength j lo room).run.2 = [.alloc ((c.t j).len + lo.toNat)] ∧
        (c.tLength j lo room).run.1.t j =
          { c.t j with len := (c.t j).len + lo.toNat, buf := some [], pos := 0, state := 3 } := by
  unfold Clients.tLength
  dsimp only
  rw [setT_own]
  split
  · exact .inl ⟨tClose_own, .inl rfl⟩
  · rename_i enough
    cases room with
    | false => exact .inl ⟨tClose_own, .inr rfl⟩
    | true => exact .inr ⟨Nat.le_of_not_lt enough, rfl, setT_own _⟩

/-- A slot of `tNew` is free. -/
theorem tSlot_own : (c.tSlot.2.t c.tSlot.1).active = 0 := by
  unfold Clients.tSlot
  split
  · rename_i j found
    have free := List.find?_some found
    exact of_decide_eq_true free
  · dsimp only
    split
    · exact tClose_own
    · exact tClose_own

theorem tSlot_other (other : j ≠ c.tSlot.1) : c.tSlot.2.t j = c.t j := by
  unfold Clients.tSlot at other ⊢
  split
  · rfl
  · rename_i full
    rw [full] at other
    dsimp only at other ⊢
    split
    · exact tClose_other other
    · exact tClose_other other

end Own

/-! ## What a connection waits for -/

/-- The state of a connection, and what has been read of the next query. -/
inductive Awaits (room : Nat) (x : TcpClient) : Bytes → Prop
  | length : x.state = 1 → Awaits room x []
  | half {hi : UInt8} : x.state = 2 → x.len = hi.toNat * 256 → Awaits room x [hi]
  | query {hi lo : UInt8} {buf : Bytes} : x.state = 3 → x.len = announced hi lo → 12 ≤ x.len →
      room = x.len → x.buf = some buf → buf.length = x.pos → x.pos < x.len →
      Awaits room x (hi :: lo :: buf)
  | busy : x.state = 0 ∨ x.state = -1 → Awaits room x []

/-- The queries of a connection are the frames of what has been read, and what is left is what the
state of the slot says. -/
def Traffic.Tracks (w : Traffic) (x : TcpClient) : Prop :=
  ∃ rest, Cut 12 w.read w.handed rest ∧ (x.active ≠ 0 → Awaits w.room x rest)

/-- So it is when these calls have been made, and what they copied was inside the buffer. -/
def Traffic.Follows (w : Traffic) (x : TcpClient) (calls : List TcpCall) : Prop :=
  (calls.foldl Traffic.see w).Tracks x ∧ Run.Along Traffic.see Traffic.Inside w calls

/-- The calls of a reply, when nothing has been read of a next query. -/
theorem Quiet.follows {calls : List TcpCall} (quiet : Quiet calls) {w : Traffic} {x : TcpClient}
    (cut : Cut 12 w.read w.handed []) (busy : x.active = 0 ∨ x.state = 0 ∨ x.state = -1) :
    w.Follows x calls := by
  obtain ⟨read, handed, inside⟩ := quiet w
  refine ⟨⟨[], ?_, fun active => .busy (busy.resolve_left active)⟩, inside⟩
  rw [read, handed]
  exact cut

theorem Awaits.dated {room : Nat} {x : TcpClient} {rest : Bytes} (awaits : Awaits room x rest)
    (timeout : Nat) : Awaits room { x with timeout := timeout } rest := by
  cases awaits with
  | length one => exact .length one
  | half two len => exact .half two len
  | query three len least alloc buf filled room => exact .query three len least alloc buf filled room
  | busy state => exact .busy state

section Reading

variable {c : Clients} {j : Fin 20} {io : TcpIo} {room : Nat} {rest : Bytes}

/-- `t_rw` for a reply. -/
theorem tRw_reply (state : (c.t j).state = -1) :
    (((c.tRw j io).run.1.t j).active = 0 ∨ ((c.tRw j io).run.1.t j).state = -1 ∨
      ((c.tRw j io).run.1.t j).state = 1) ∧ (c.tRw j io).run.2 = [] := by
  unfold Clients.tRw
  rw [if_pos state]
  split
  · exact ⟨.inl tClose_own, rfl⟩
  · dsimp only
    split
    · exact ⟨.inr (.inr (congrArg TcpClient.state (setT_own _))), rfl⟩
    · exact ⟨.inr (.inl ((congrArg TcpClient.state (setT_own _)).trans state)), rfl⟩

/-- `t_rw` when nothing can be read. -/
theorem tRw_none (state : (c.t j).state = 1 ∨ (c.t j).state = 2 ∨ (c.t j).state = 3)
    (empty : io.chunk.getD [] = []) :
    (c.tRw j io).run = (c.tClose j, [.read (c.t j).toread []]) := by
  unfold Clients.tRw
  rw [if_neg (by omega), if_neg (by omega)]
  cases chunk : io.chunk with
  | none => rfl
  | some s =>
    rw [chunk] at empty
    cases (show s = [] from empty)
    rfl

/-- A `read`, and what follows. -/
def readThen (toread : Nat) (chunk : Bytes) (x : TcpCalls Clients) : Clients × List TcpCall :=
  (x.run.1, .read toread chunk :: x.run.2)

/-- `t_rw` with the first octet of a length, and no more. -/
theorem tRw_first (state : (c.t j).state = 1) {hi : UInt8} (chunk : io.chunk = some [hi]) :
    (c.tRw j io).run = readThen (c.t j).toread [hi]
      (return c.setT j { c.t j with len := hi.toNat * 256, state := 2 }) := by
  unfold Clients.tRw
  rw [if_neg (by omega), if_neg (by omega), chunk]
  exact congrArg (readThen _ _) (if_pos state)

theorem tRw_both (state : (c.t j).state = 1) {hi lo : UInt8} {s : Bytes}
    (chunk : io.chunk = some (hi :: lo :: s)) :
    (c.tRw j io).run = readThen (c.t j).toread (hi :: lo :: s)
      ((c.setT j { c.t j with len := hi.toNat * 256, state := 2 }).tLength j lo io.room) := by
  unfold Clients.tRw
  rw [if_neg (by omega), if_neg (by omega), chunk]
  exact congrArg (readThen _ _) (if_pos state)

theorem tRw_second (state : (c.t j).state = 2) {lo : UInt8} {s : Bytes}
    (chunk : io.chunk = some (lo :: s)) :
    (c.tRw j io).run = readThen (c.t j).toread (lo :: s) (c.tLength j lo io.room) := by
  unfold Clients.tRw
  rw [if_neg (by omega), if_neg (by omega), chunk]
  exact congrArg (readThen _ _) ((if_neg (by omega)).trans (if_pos state))

theorem tRw_fill (state : (c.t j).state = 3) {ch : UInt8} {s : Bytes}
    (chunk : io.chunk = some (ch :: s)) :
    (c.tRw j io).run = readThen (c.t j).toread (ch :: s) (c.tFill j (ch :: s) io) := by
  unfold Clients.tRw
  rw [if_neg (by omega), if_neg (by omega), chunk]
  exact congrArg (readThen _ _) ((if_neg (by omega)).trans (if_neg (by omega)))

/-- `t_rw` with the last octets of a query: the buffer goes to `packetquery`. -/
theorem tFill_last {chunk : Bytes} (last : ¬ (c.t j).pos + chunk.length < (c.t j).len) :
    (((c.tFill j chunk io).run.1.t j).active = 0 ∨ ((c.tFill j chunk io).run.1.t j).state = 0 ∨
      ((c.tFill j chunk io).run.1.t j).state = -1) ∧
      ∃ reply, Quiet reply ∧ (c.tFill j chunk io).run.2 = .copy (c.t j).pos chunk ::
        .packetquery (((c.t j).buf.getD []).take (c.t j).pos ++ chunk) (c.t j).len :: reply := by
  rw [c.tFill_run j chunk io, if_neg last]
  dsimp only
  split
  · exact ⟨.inl tClose_own, [], quiet_nil, rfl⟩
  · rename_i q hq
    obtain ⟨slot, quiet⟩ := @tQuery_own (c.setT j ((c.t j).filled chunk)) j q io
    exact ⟨slot, _, quiet, rfl⟩

/-- Two octets of a length are no query yet. -/
theorem incomplete_pair (hi lo : UInt8) : Incomplete 12 [hi, lo] := by
  by_cases low : announced hi lo < 12
  · exact .refused [] low
  · exact .short (Nat.lt_of_lt_of_le (by decide) (Nat.le_of_not_lt low))

/-- A connection whose length has been read: it is closed, or waits for the query. -/
theorem tLength_follows {w : Traffic} {hi lo : UInt8} {room : Bool}
    (len : (c.t j).len = hi.toNat * 256) (cut : Cut 12 w.read w.handed [hi, lo]) :
    w.Follows ((c.tLength j lo room).run.1.t j) (c.tLength j lo room).run.2 := by
  rcases tLength_own lo room with ⟨closed, calls | calls⟩ | ⟨least, calls, slot⟩
  · rw [calls]
    exact ⟨⟨_, cut, fun active => absurd closed active⟩, trivial⟩
  · rw [calls]
    exact ⟨⟨_, cut, fun active => absurd closed active⟩, trivial, trivial⟩
  · rw [len] at least calls slot
    rw [calls, slot]
    refine ⟨⟨_, cut, fun _ => ?_⟩, trivial, trivial⟩
    exact .query rfl rfl least rfl rfl rfl (Nat.lt_of_lt_of_le (Nat.succ_pos 11) least)

/-- `t_rw` with octets of the query that the connection waits for. -/
theorem tFill_follows {w : Traffic} {hi lo : UInt8} {buf chunk : Bytes} (state : (c.t j).state = 3)
    (len : (c.t j).len = announced hi lo) (least : 12 ≤ (c.t j).len) (alloc : w.room = (c.t j).len)
    (held : (c.t j).buf = some buf) (filled : buf.length = (c.t j).pos)
    (short : (c.t j).pos + chunk.length ≤ (c.t j).len)
    (cut : Cut 12 w.read w.handed (hi :: lo :: buf)) :
    ({ w with read := w.read ++ chunk } : Traffic).Follows ((c.tFill j chunk io).run.1.t j)
      (c.tFill j chunk io).run.2 := by
  have copied : ((c.t j).buf.getD []).take (c.t j).pos ++ chunk = buf ++ chunk := by
    rw [held, Option.getD_some, ← filled, List.take_length]
  have length : (buf ++ chunk).length = (c.t j).pos + chunk.length := by
    rw [List.length_append, filled]
  have inside : (c.t j).pos + chunk.length ≤ w.room := alloc ▸ short
  by_cases more : (c.t j).pos + chunk.length < (c.t j).len
  · rw [c.tFill_run j chunk io, if_pos more]
    refine ⟨⟨hi :: lo :: (buf ++ chunk), ?_, fun _ => ?_⟩, inside, trivial⟩
    · refine cut.extend (.short ?_)
      show (buf ++ chunk).length < announced hi lo
      omega
    · show Awaits w.room ((c.setT j _).t j) _
      rw [setT_own]
      exact .query state len least alloc (congrArg some copied) length more
  · obtain ⟨slot, reply, quiet, calls⟩ := tFill_last more
    have full : (buf ++ chunk).length = announced hi lo := by omega
    have fit : 12 ≤ (buf ++ chunk).length ∧ (buf ++ chunk).length < 65536 :=
      ⟨by omega, full ▸ announced_lt hi lo⟩
    have whole : (buf ++ chunk).take (c.t j).len = buf ++ chunk :=
      List.take_of_length_le (by omega)
    have cut : Cut 12 (w.read ++ chunk) (w.handed ++ [(buf ++ chunk).take (c.t j).len]) [] := by
      rw [whole]
      exact cut.complete (frame_eq full).symm fit
    obtain ⟨tracks, replied⟩ := quiet.follows
      (w := ⟨w.read ++ chunk, w.handed ++ [(buf ++ chunk).take (c.t j).len], w.room⟩) cut slot
    rw [calls, copied]
    refine ⟨tracks, inside, ⟨?_, alloc.symm⟩, replied⟩
    show (buf ++ chunk).length = (c.t j).len
    omega

/-- **What `t_rw` reads** goes to the query that the connection waits for, and to no other. -/
theorem tRw_follows {w : Traffic} (cut : Cut 12 w.read w.handed rest)
    (awaits : Awaits w.room (c.t j) rest) (fair : ∀ call ∈ (c.tRw j io).run.2, call.Fair)
    (state : (c.t j).state = 1 ∨ (c.t j).state = 2 ∨ (c.t j).state = 3) :
    w.Follows ((c.tRw j io).run.1.t j) (c.tRw j io).run.2 := by
  by_cases empty : io.chunk.getD [] = []
  · rw [tRw_none state empty]
    refine ⟨⟨rest, ?_, fun active => absurd tClose_own active⟩, trivial, trivial⟩
    show Cut 12 (w.read ++ []) w.handed rest
    rwa [List.append_nil]
  · obtain ⟨ch, s, chunk⟩ : ∃ ch s, io.chunk = some (ch :: s) := by
      rcases chunk : io.chunk with _ | _ | ⟨ch, s⟩
      · rw [chunk] at empty
        exact absurd rfl empty
      · rw [chunk] at empty
        exact absurd rfl empty
      · exact ⟨ch, s, rfl⟩
    cases awaits with
    | length one =>
      match s with
      | [] =>
        rw [tRw_first one chunk] at fair ⊢
        refine ⟨⟨[ch], cut.extend (.half ch), fun _ => ?_⟩, trivial, trivial⟩
        show Awaits w.room ((c.setT j _).t j) [ch]
        rw [setT_own]
        exact .half rfl rfl
      | lo :: s =>
        rw [tRw_both one chunk] at fair ⊢
        have short : (ch :: lo :: s).length ≤ (c.t j).toread := fair _ List.mem_cons_self
        rw [TcpClient.toread, if_pos one] at short
        have nothing : s = [] := List.eq_nil_of_length_eq_zero (by simpa using short)
        subst nothing
        have len : ((c.setT j { c.t j with len := ch.toNat * 256, state := 2 }).t j).len =
            ch.toNat * 256 := congrArg TcpClient.len (setT_own _)
        obtain ⟨tracks, inside⟩ := @tLength_follows _ j { w with read := w.read ++ [ch, lo] } ch lo io.room len
          (cut.extend (incomplete_pair ch lo))
        exact ⟨tracks, trivial, inside⟩
    | @half hi two len =>
      rw [tRw_second two chunk] at fair ⊢
      have short : (ch :: s).length ≤ (c.t j).toread := fair _ List.mem_cons_self
      rw [TcpClient.toread, if_neg (by omega), if_pos two] at short
      have nothing : s = [] := List.eq_nil_of_length_eq_zero (by simpa using short)
      subst nothing
      obtain ⟨tracks, inside⟩ := @tLength_follows _ j { w with read := w.read ++ [ch] } hi ch io.room len
        (cut.extend (incomplete_pair hi ch))
      exact ⟨tracks, trivial, inside⟩
    | @query hi lo buf three len least alloc held filled pos =>
      rw [tRw_fill three chunk] at fair ⊢
      have short : (ch :: s).length ≤ (c.t j).toread := fair _ List.mem_cons_self
      rw [TcpClient.toread, if_neg (by omega), if_neg (by omega)] at short
      obtain ⟨tracks, inside⟩ := @tFill_follows _ _ io w hi lo buf (ch :: s) three len least alloc held
        filled (by omega) cut
      exact ⟨tracks, trivial, inside⟩
    | busy busy => omega

end Reading

/-! ## Events -/

section Slot

variable {c : Clients} {j : Fin 20}

/-- The slot of a TCP event: a report has moved its timeout. -/
theorem tcp_eq (c : Clients) (j : Fin 20) (io : TcpIo) (active : (c.t j).active ≠ 0) :
    ∃ (d : Clients) (timeout : Nat), d.t j = { c.t j with timeout := timeout } ∧ c.tcp j io =
      if (d.t j).state = 0 then
        match io.got with
        | .failed => return d.tDrop j
        | .answered response => d.tRespond j response io.replyRoom
        | .pending => return d
      else if io.reported ∨ io.late then d.tRw j io else return d := by
  refine ⟨if io.reported then c.tTimeout j io.now else c,
    if io.reported then io.now + 10 else (c.t j).timeout, ?_, if_neg active⟩
  by_cases reported : io.reported
  · rw [if_pos reported, if_pos reported, Clients.tTimeout, if_neg active]
    exact setT_own _
  · rw [if_neg reported, if_neg reported]

/-- A connection that is accepted starts with a length. -/
theorem tNew_opens {accepted : Option Connection} {now : Nat} (mine : c.tSlot.1 = j)
    (active : ((c.tNew now accepted).t j).active ≠ 0) : ((c.tNew now accepted).t j).state = 1 := by
  have free := tSlot_own (c := c)
  subst mine
  unfold Clients.tNew at active ⊢
  generalize c.tSlot = slot at free active ⊢
  obtain ⟨k, d⟩ := slot
  have left : ((d.setT k { d.t k with start := now }).t k).active = 0 := by
    rw [setT_own]
    exact free
  dsimp only at active ⊢
  cases accepted with
  | none => exact absurd left active
  | some x =>
    dsimp only at active ⊢
    split at active
    · exact absurd left active
    · split at active
      · exact absurd left active
      · split at active
        · exact absurd left active
        · rename_i port ok ndelay
          rw [if_neg port, if_neg ok, if_neg ndelay, Clients.tTimeout]
          split
          · exact congrArg TcpClient.state (setT_own _)
          · rw [setT_own]
            exact congrArg TcpClient.state (setT_own _)

theorem tNew_other {accepted : Option Connection} (now : Nat) (other : j ≠ c.tSlot.1) :
    (c.tNew now accepted).t j = c.t j := by
  have same := tSlot_other other
  unfold Clients.tNew
  generalize c.tSlot = slot at other same
  obtain ⟨k, d⟩ := slot
  have left := (@setT_other d k j other { d.t k with start := now }).trans same
  dsimp only
  cases accepted with
  | none => exact left
  | some x =>
    dsimp only
    split
    · exact left
    · split
      · exact left
      · split
        · exact left
        · exact (tTimeout_other other now).trans ((setT_other other _).trans left)

/-- **One look at a TCP slot** keeps the frames of what has been read. -/
theorem tcp_follows {w : Traffic} {io : TcpIo} (tracks : w.Tracks (c.t j))
    (fair : ∀ call ∈ (c.tcp j io).run.2, call.Fair) :
    w.Follows ((c.tcp j io).run.1.t j) (c.tcp j io).run.2 := by
  by_cases active : (c.t j).active = 0
  · have stays : c.tcp j io = (return c) := if_pos active
    rw [stays]
    exact ⟨tracks, trivial⟩
  · obtain ⟨d, timeout, dated, eq⟩ := tcp_eq c j io active
    obtain ⟨rest, cut, awaits⟩ := tracks
    have waits : Awaits w.room (d.t j) rest := dated ▸ (awaits active).dated timeout
    rw [eq] at fair ⊢
    by_cases idle : (d.t j).state = 0
    · have nothing : rest = [] := by cases waits <;> first | rfl | omega
      subst nothing
      rw [if_pos idle] at fair ⊢
      cases io.got with
      | failed => exact quiet_nil.follows cut (.inl tClose_own)
      | pending => exact quiet_nil.follows cut (.inr (.inl idle))
      | answered response =>
        obtain ⟨slot, quiet⟩ := @tRespond_own d j response io.replyRoom
        exact quiet.follows cut (slot.imp_right .inr)
    · rw [if_neg idle] at fair ⊢
      by_cases called : io.reported ∨ io.late
      · rw [if_pos called] at fair ⊢
        by_cases reply : (d.t j).state = -1
        · have nothing : rest = [] := by cases waits <;> first | rfl | omega
          subst nothing
          obtain ⟨slot, calls⟩ := @tRw_reply d j io reply
          rw [calls]
          refine ⟨⟨[], cut, fun still => ?_⟩, trivial⟩
          rcases slot.resolve_left still with writing | done
          · exact .busy (.inr writing)
          · exact .length done
        · refine tRw_follows cut waits fair ?_
          cases waits <;> omega
      · rw [if_neg called]
        exact ⟨⟨rest, cut, fun _ => waits⟩, trivial⟩

end Slot

section Step

variable {s : Watched} {j : Fin 20}

def Watched.Tracks (j : Fin 20) (s : Watched) : Prop := s.traffic.Tracks (s.clients.t j)

/-- **An event** keeps the frames of what has been read. -/
theorem Watched.Tracks.step (tracks : s.Tracks j) {e : Event} (fair : s.Fair j e) :
    (s.step j e).Tracks j ∧ s.Inside j e := by
  obtain ⟨c, w⟩ := s
  have kept {d : Clients} (same : d.t j = c.t j) : w.Tracks (d.t j) := by
    rw [same]
    exact tracks
  cases e with
  | udp i got => exact ⟨kept (congrFun (udp_t c i got) j), trivial⟩
  | datagram a => exact ⟨kept (congrFun (uNew_t c a) j), trivial⟩
  | connection now accepted =>
    refine ⟨?_, trivial⟩
    show (if c.Opens j (.connection now accepted) then Watched.idle.traffic else w).Tracks
      ((c.tNew now accepted).t j)
    by_cases opens : c.Opens j (.connection now accepted)
    · rw [if_pos opens]
      exact ⟨[], cut_nil, fun _ => .length (tNew_opens opens.1 opens.2)⟩
    · rw [if_neg opens]
      by_cases mine : c.tSlot.1 = j
      · obtain ⟨rest, cut, -⟩ := tracks
        exact ⟨rest, cut, fun active => absurd ⟨mine, active⟩ opens⟩
      · exact kept (tNew_other now fun h => mine h.symm)
  | tcp i io =>
    by_cases mine : i = j
    · subst mine
      have calls : c.calls i (.tcp i io) = (c.tcp i io).run.2 := if_pos rfl
      unfold Watched.Fair at fair
      unfold Watched.Inside
      show ((c.calls i (.tcp i io)).foldl Traffic.see w).Tracks _ ∧ _
      dsimp only at fair ⊢
      rw [calls] at fair ⊢
      exact tcp_follows tracks fair
    · have calls : c.calls j (.tcp i io) = [] := if_neg mine
      unfold Watched.Inside
      show ((c.calls j (.tcp i io)).foldl Traffic.see w).Tracks _ ∧ _
      dsimp only
      rw [calls]
      exact ⟨kept (tcp_other (Ne.symm mine) io), trivial⟩

end Step

end TinyDnssec.Dnscache
