import TinyDnssec.Dns
import TinyDnssec.Packet

/-!
# What a message says

The abstract side of a reply: a question and three sections of records, and what it means that a
memory holds them. A record's data is a sequence of plain octets and of names, because names may be
compressed; a compressed name stands for whatever it decodes to, and it is compared without
letter case, since a pointer may lead to another spelling.

Nothing here says how a message is built. `Response` builds one, and this is what it is shown to
have built.
-/

namespace TinyDnssec

open Octets

/-- A piece of a record's data. -/
inductive Part where
  | octets (s : Bytes)
  | name (n : Name)
deriving DecidableEq

/-- A record of a message. -/
structure Entry where
  owner : Name
  type : Bytes
  cls : Bytes
  ttl : Nat
  rdata : List Part
deriving DecidableEq

/-- The records of a message, by section and in their order. -/
structure Log where
  answer : List Entry := []
  authority : List Entry := []
  additional : List Entry := []
deriving DecidableEq

def Log.all (log : Log) : List Entry := log.answer ++ log.authority ++ log.additional

/-- A name is encoded at `pos`, in some spelling and within the limits of a decoder. -/
def NameAt (m : Memory) (pos : Nat) (n : Name) (stop : Nat) : Prop :=
  ∃ n' cost, Decodes m pos n' stop cost ∧ cost < 1000 ∧ Valid n' ∧ lowerName n' = lowerName n

/-- The pieces stand one behind the other. -/
def PartsAt (m : Memory) : Nat → List Part → Nat → Prop
  | pos, [], stop => stop = pos
  | pos, .octets s :: ps, stop => Holds m pos s ∧ PartsAt m (pos + s.length) ps stop
  | pos, .name n :: ps, stop => ∃ p, NameAt m pos n p ∧ PartsAt m p ps stop

/-- The ten octets in front of a record's data. -/
def fixedFields (type cls : Bytes) (ttl datalen : Nat) : Bytes :=
  type ++ cls ++ be32 ttl ++ be16 datalen

/-- A record stands at `pos`, and `stop` is the position behind it. -/
def EntryAt (m : Memory) (pos : Nat) (e : Entry) (stop : Nat) : Prop :=
  ∃ p, NameAt m pos e.owner p ∧ e.type.length = 2 ∧ e.cls.length = 2 ∧ p + 10 ≤ stop ∧
    stop - (p + 10) < 65536 ∧ Holds m p (fixedFields e.type e.cls e.ttl (stop - (p + 10))) ∧
    PartsAt m (p + 10) e.rdata stop

/-- The records stand one behind the other. -/
def EntriesAt (m : Memory) : Nat → List Entry → Nat → Prop
  | pos, [], stop => stop = pos
  | pos, e :: es, stop => ∃ p, EntryAt m pos e p ∧ EntriesAt m p es stop

/-- The question and the records of a message, behind its header. -/
def Body (m : Memory) (question : Name) (log : Log) (stop : Nat) : Prop :=
  ∃ p, NameAt m 12 question p ∧ EntriesAt m (p + 4) log.all stop

/-- The section counts of the header. -/
def Counts (m : Memory) (log : Log) : Prop :=
  Holds m 6 (be16 log.answer.length ++ be16 log.authority.length ++ be16 log.additional.length)

/-- **The octets are a message** with this question and these records: they parse to their end, and
the header counts the records of each section. -/
structure Says (buf : Bytes) (question : Name) (log : Log) : Prop where
  counts : Counts (memory buf) log
  body : Body (memory buf) question log buf.length

/-! ## More octets -/

theorem NameAt.mono {m m' : Memory} {pos stop : Nat} {n : Name} (h : NameAt m pos n stop)
    (within : Within m m') : NameAt m' pos n stop := by
  obtain ⟨n', cost, hdec, hrest⟩ := h
  exact ⟨n', cost, hdec.mono within, hrest⟩

theorem PartsAt.mono {m m' : Memory} {pos stop : Nat} {ps : List Part} (h : PartsAt m pos ps stop)
    (within : Within m m') : PartsAt m' pos ps stop := by
  induction ps generalizing pos with
  | nil => exact h
  | cons part ps ih =>
    cases part with
    | octets s => exact ⟨h.1.mono within, ih h.2⟩
    | name n =>
      obtain ⟨p, hname, hrest⟩ := h
      exact ⟨p, hname.mono within, ih hrest⟩

theorem EntryAt.mono {m m' : Memory} {pos stop : Nat} {e : Entry} (h : EntryAt m pos e stop)
    (within : Within m m') : EntryAt m' pos e stop := by
  obtain ⟨p, hname, htype, hcls, hle, hlt, hfixed, hparts⟩ := h
  exact ⟨p, hname.mono within, htype, hcls, hle, hlt, hfixed.mono within, hparts.mono within⟩

theorem EntriesAt.mono {m m' : Memory} {pos stop : Nat} {es : List Entry}
    (h : EntriesAt m pos es stop) (within : Within m m') : EntriesAt m' pos es stop := by
  induction es generalizing pos with
  | nil => exact h
  | cons e es ih =>
    obtain ⟨p, hentry, hrest⟩ := h
    exact ⟨p, hentry.mono within, ih hrest⟩

theorem Body.mono {m m' : Memory} {question : Name} {log : Log} {stop : Nat}
    (h : Body m question log stop) (within : Within m m') : Body m' question log stop := by
  obtain ⟨p, hname, hentries⟩ := h
  exact ⟨p, hname.mono within, hentries.mono within⟩

/-! ## More records -/

theorem PartsAt.append {m : Memory} {pos mid stop : Nat} {ps qs : List Part}
    (h : PartsAt m pos ps mid) (h' : PartsAt m mid qs stop) : PartsAt m pos (ps ++ qs) stop := by
  induction ps generalizing pos with
  | nil =>
    rw [show mid = pos from h] at h'
    exact h'
  | cons part ps ih =>
    cases part with
    | octets s => exact ⟨h.1, ih h.2⟩
    | name n =>
      obtain ⟨p, hname, hrest⟩ := h
      exact ⟨p, hname, ih hrest⟩

theorem EntriesAt.append {m : Memory} {pos mid stop : Nat} {es fs : List Entry}
    (h : EntriesAt m pos es mid) (h' : EntriesAt m mid fs stop) :
    EntriesAt m pos (es ++ fs) stop := by
  induction es generalizing pos with
  | nil =>
    rw [show mid = pos from h] at h'
    exact h'
  | cons e es ih =>
    obtain ⟨p, hentry, hrest⟩ := h
    exact ⟨p, hentry, ih hrest⟩

/-- A name is read where it stands. -/
theorem NameAt.getname {buf : Bytes} {pos stop : Nat} {n : Name}
    (h : NameAt (memory buf) pos n stop) :
    ∃ n', dnsPacketGetname buf pos = some (n', stop) ∧ Valid n' ∧ lowerName n' = lowerName n := by
  obtain ⟨n', cost, hdec, hcost, hvalid, hlower⟩ := h
  exact ⟨n', dnsPacketGetname_of_decodes hdec hcost hvalid.short, hvalid, hlower⟩

theorem Decodes.forward {m : Memory} {pos stop cost : Nat} {n : Name}
    (h : Decodes m pos n stop cost) : pos < stop := by
  induction h with
  | root _ => exact Nat.lt_succ_self _
  | label _ _ _ ih => omega
  | pointer _ _ _ _ hstop _ => omega

theorem EntryAt.forward {m : Memory} {pos stop : Nat} {e : Entry} (h : EntryAt m pos e stop) :
    pos < stop := by
  obtain ⟨p, ⟨_, _, hdec, _⟩, _, _, hle, _⟩ := h
  have := hdec.forward
  omega

/-- A message has no more records than octets. -/
theorem EntriesAt.length_le {m : Memory} {pos stop : Nat} {es : List Entry}
    (h : EntriesAt m pos es stop) : pos + es.length ≤ stop := by
  induction es generalizing pos with
  | nil =>
    have hstop : stop = pos := h
    exact hstop.ge
  | cons e es ih =>
    obtain ⟨p, hentry, hrest⟩ := h
    have hforward := hentry.forward
    have hlen := ih hrest
    rw [List.length_cons]
    omega

/-- The fixed fields of a record are read where they stand. -/
theorem EntryAt.read {buf : Bytes} {pos stop : Nat} {e : Entry}
    (h : EntryAt (memory buf) pos e stop) :
    ∃ n p x, dnsPacketGetname buf pos = some (n, p) ∧ Valid n ∧ lowerName n = lowerName e.owner ∧
      dnsPacketCopy buf p 10 = some (x, p + 10) ∧ x.take 2 = e.type ∧
      p + 10 + unbe (x.drop 8) = stop := by
  obtain ⟨p, hname, htype, hcls, hle, hlt, hfixed, _⟩ := h
  obtain ⟨n, hread, hvalid, hlower⟩ := hname.getname
  have hlen : (fixedFields e.type e.cls e.ttl (stop - (p + 10))).length = 10 := by
    simp only [fixedFields, List.length_append, htype, hcls, be32_length, be16_length]
  have hcopy := dnsPacketCopy_of_field (holds_memory.mp hfixed)
  rw [hlen] at hcopy
  refine ⟨n, p, _, hread, hvalid, hlower, hcopy, ?_, ?_⟩
  · unfold fixedFields
    rw [List.append_assoc, List.append_assoc, ← htype, List.take_left]
  · have height : (e.type ++ e.cls ++ be32 e.ttl).length = 8 := by
      simp only [List.length_append, htype, hcls, be32_length]
    unfold fixedFields
    rw [← height, List.drop_left, unbe_be16 hlt]
    omega

/-! ## One reading -/

/-- Two records of one type and one owner, in whatever letter case. -/
structure Entry.Alike (e e' : Entry) : Prop where
  owner : lowerName e.owner = lowerName e'.owner
  type : e.type = e'.type

theorem EntryAt.agree {buf : Bytes} {pos stop stop' : Nat} {e e' : Entry}
    (h : EntryAt (memory buf) pos e stop) (h' : EntryAt (memory buf) pos e' stop') :
    stop = stop' ∧ e.Alike e' := by
  obtain ⟨n, p, x, hread, _, hlower, hcopy, htype, hstop⟩ := h.read
  obtain ⟨n', p', x', hread', _, hlower', hcopy', htype', hstop'⟩ := h'.read
  rw [hread] at hread'
  cases hread'
  rw [hcopy] at hcopy'
  cases hcopy'
  exact ⟨hstop.symm.trans hstop', hlower.symm.trans hlower', htype.symm.trans htype'⟩

/-- **Records are read in one way**, whatever stands behind them. -/
theorem EntriesAt.agree {buf : Bytes} {pos stop stop' : Nat} {es fs more : List Entry}
    (h : EntriesAt (memory buf) pos es stop) (h' : EntriesAt (memory buf) pos (fs ++ more) stop')
    (same : es.length = fs.length) : List.Forall₂ Entry.Alike es fs := by
  induction es generalizing pos fs with
  | nil =>
    rw [List.length_eq_zero_iff.mp same.symm]
    exact .nil
  | cons e es ih =>
    cases fs with
    | nil => cases same
    | cons f fs =>
      obtain ⟨p, hentry, hrest⟩ := h
      obtain ⟨p', hentry', hrest'⟩ := h'
      obtain ⟨rfl, halike⟩ := hentry.agree hentry'
      exact .cons halike (ih hrest hrest' (Nat.succ.inj same))

/-- Octets that begin as a message with this question, these answers and these authority records;
nothing is said of what comes behind. -/
structure Begins (buf : Bytes) (question : Name) (log : Log) : Prop where
  limit : buf.length ≤ 65535
  counts : Holds (memory buf) 6 (be16 log.answer.length ++ be16 log.authority.length)
  body : ∃ p stop, NameAt (memory buf) 12 question p ∧ stop ≤ buf.length ∧
    EntriesAt (memory buf) (p + 4) (log.answer ++ log.authority) stop

/-- **However the octets are read as a message**, it has the authority records they begin with. -/
theorem Begins.alike {buf : Bytes} {question question' : Name} {log log' : Log}
    (h : Begins buf question log) (h' : Says buf question' log') :
    List.Forall₂ Entry.Alike log.authority log'.authority := by
  obtain ⟨p, stop, hname, hstop, hentries⟩ := h.body
  obtain ⟨p', hname', hentries'⟩ := h'.body
  have hp : p = p' := by
    obtain ⟨n, hread, _⟩ := hname.getname
    obtain ⟨n', hread', _⟩ := hname'.getname
    rw [hread] at hread'
    cases hread'
    rfl
  subst hp
  have hlimit := h.limit
  have hfew := hentries.length_le
  have hfew' := hentries'.length_le
  simp only [Log.all, List.length_append] at hfew hfew'
  have hcounts : be16 log.answer.length ++ be16 log.authority.length =
      be16 log'.answer.length ++ be16 log'.authority.length := by
    refine h.counts.unique (holds_append.mp h'.counts).1 ?_
    simp only [List.length_append, be16_length]
  obtain ⟨hanswers, hauthorities⟩ := List.append_inj hcounts rfl
  have hanswer : log.answer.length = log'.answer.length := by
    rw [← unbe_be16 (show log.answer.length < 65536 by omega), hanswers, unbe_be16 (by omega)]
  have hauthority : log.authority.length = log'.authority.length := by
    rw [← unbe_be16 (show log.authority.length < 65536 by omega), hauthorities,
      unbe_be16 (by omega)]
  have hsame := @EntriesAt.agree _ _ _ _ _ (log'.answer ++ log'.authority) _ hentries hentries' (by
    rw [List.length_append, List.length_append, hanswer, hauthority])
  have hdrop := List.forall₂_drop_append _ _ _ hsame
  rwa [← hanswer, List.drop_left] at hdrop

/-! ## Sections -/

inductive Section where
  | answer
  | authority
  | additional
deriving DecidableEq

/-- The section's records so far are the last of the message. -/
def Log.Open (log : Log) : Section → Prop
  | .answer => log.authority = [] ∧ log.additional = []
  | .authority => log.additional = []
  | .additional => True

/-- More records at the end of a section. -/
def Log.add (log : Log) : Section → List Entry → Log
  | .answer, es => { log with answer := log.answer ++ es }
  | .authority, es => { log with authority := log.authority ++ es }
  | .additional, es => { log with additional := log.additional ++ es }

theorem Log.all_add {log : Log} {s : Section} (isOpen : log.Open s) (es : List Entry) :
    (log.add s es).all = log.all ++ es := by
  cases s with
  | answer =>
    obtain ⟨hauthority, hadditional⟩ := isOpen
    simp only [Log.all, Log.add, hauthority, hadditional, List.append_nil]
  | authority =>
    have hadditional : log.additional = [] := isOpen
    simp only [Log.all, Log.add, hadditional, List.append_nil, List.append_assoc]
  | additional => simp only [Log.all, Log.add, List.append_assoc]

theorem Log.open_add {log : Log} {s : Section} (isOpen : log.Open s) (es : List Entry) :
    (log.add s es).Open s := by
  cases s <;> exact isOpen

@[simp] theorem Log.add_nil (log : Log) (s : Section) : log.add s [] = log := by
  cases s <;> simp only [Log.add, List.append_nil]

theorem Log.add_append (log : Log) (s : Section) (es fs : List Entry) :
    log.add s (es ++ fs) = (log.add s es).add s fs := by
  cases s <;> simp only [Log.add, List.append_assoc]

end TinyDnssec
