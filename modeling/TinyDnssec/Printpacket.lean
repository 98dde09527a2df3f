import TinyDnssec.Message

/-!
# Packets that parse to their end

What `printpacket_cat` asks of a packet as a whole: the header counts the questions and the records,
each is read behind the other, and behind the last the packet ends. What it prints on the way is
left out.

A message that `Says` something parses like that. The other way round, octets that end behind their
question do not, when the header counts any record.
-/

namespace TinyDnssec

open Octets

/-- The loop over the questions. -/
def packetQueries (buf : Bytes) : Nat → Nat → Option Nat
  | 0, pos => some pos
  | numqueries + 1, pos =>
    match dnsPacketGetname buf pos with
    | none => none
    | some (_, pos) =>
      match dnsPacketCopy buf pos 4 with
      | none => none
      | some (_, pos) => packetQueries buf numqueries pos

/-- The loop over the records of all sections: `printrecord_cat` answers the position behind the
data. -/
def packetRecords (buf : Bytes) : Nat → Nat → Option Nat
  | 0, pos => some pos
  | num + 1, pos =>
    match dnsPacketGetname buf pos with
    | none => none
    | some (_, pos) =>
      match dnsPacketCopy buf pos 10 with
      | none => none
      | some (misc, pos) => packetRecords buf num (pos + unbe (misc.drop 8))

/-- The packet parses completely, and ends where its last record does. -/
def packetParses (buf : Bytes) : Bool :=
  match dnsPacketCopy buf 0 12 with
  | none => false
  | some (data, pos) =>
    let numqueries := unbe ((data.drop 4).take 2)
    let numanswers := unbe ((data.drop 6).take 2)
    let numauthority := unbe ((data.drop 8).take 2)
    let numglue := unbe ((data.drop 10).take 2)
    match packetQueries buf numqueries pos with
    | none => false
    | some pos =>
      decide (packetRecords buf (numanswers + numauthority + numglue) pos = some buf.length)

theorem packetRecords_of_entries {buf : Bytes} {pos stop : Nat} {es : List Entry}
    (h : EntriesAt (memory buf) pos es stop) : packetRecords buf es.length pos = some stop := by
  induction es generalizing pos with
  | nil => exact congrArg some (show stop = pos from h).symm
  | cons e es ih =>
    obtain ⟨p, hentry, hrest⟩ := h
    obtain ⟨n, q, x, hread, _, _, hcopy, _, hstop⟩ := hentry.read
    rw [List.length_cons, packetRecords, hread]
    simp only [hcopy, hstop]
    exact ih hrest

/-- The counts a header holds are the ones that are read from it. -/
theorem header_counts {buf : Bytes} (header : 12 ≤ buf.length) (one : Holds (memory buf) 4 [0, 1])
    {log : Log} (counts : Counts (memory buf) log) (limit : log.all.length < 65536) :
    dnsPacketCopy buf 0 12 = some (buf.take 12, 12) ∧
      unbe (((buf.take 12).drop 4).take 2) = 1 ∧
      unbe (((buf.take 12).drop 6).take 2) + unbe (((buf.take 12).drop 8).take 2) +
        unbe (((buf.take 12).drop 10).take 2) = log.all.length := by
  have hfield {pos : Nat} {s : Bytes} (h : Holds (memory buf) pos s) (two : s.length = 2)
      (inside : pos + 2 ≤ 12) : ((buf.take 12).drop pos).take 2 = s := by
    rw [holds_memory] at h
    rw [List.drop_take, List.take_take, Nat.min_eq_left (by omega), ← two]
    exact (List.prefix_iff_eq_take.mp h).symm
  have hcopy := dnsPacketCopy_of_field (show buf.take 12 <+: buf.drop 0 from List.take_prefix 12 buf)
  rw [List.length_take, Nat.min_eq_left header] at hcopy
  simp only [Log.all, List.length_append] at limit ⊢
  unfold Counts at counts
  rw [holds_append, holds_append] at counts
  obtain ⟨⟨hanswer, hauthority⟩, hadditional⟩ := counts
  have hauthority : Holds (memory buf) 8 (be16 log.authority.length) := hauthority
  have hadditional : Holds (memory buf) 10 (be16 log.additional.length) := hadditional
  refine ⟨hcopy, ?_, ?_⟩
  · rw [hfield one rfl (by decide)]
    rfl
  · rw [hfield hanswer rfl (by decide), hfield hauthority rfl (by decide),
      hfield hadditional rfl (by decide), unbe_be16 (by omega), unbe_be16 (by omega),
      unbe_be16 (by omega)]

/-- The question is read. -/
theorem packetQueries_one {buf : Bytes} {question : Name} {p : Nat}
    (name : NameAt (memory buf) 12 question p) (fits : p + 4 ≤ buf.length) :
    packetQueries buf 1 12 = some (p + 4) := by
  obtain ⟨n, hread, _⟩ := name.getname
  have hfield : (buf.drop p).take 4 <+: buf.drop p := List.take_prefix 4 _
  have hcopy := dnsPacketCopy_of_field hfield
  rw [List.length_take, List.length_drop, Nat.min_eq_left (by omega)] at hcopy
  unfold packetQueries
  rw [hread]
  simp only [hcopy]
  rfl

/-- **A message parses to its end.** -/
theorem Says.parses {buf : Bytes} {question : Name} {log : Log} (h : Says buf question log)
    (one : Holds (memory buf) 4 [0, 1]) (limit : buf.length ≤ 65535) : packetParses buf = true := by
  obtain ⟨p, hname, hentries⟩ := h.body
  have hlen := hentries.length_le
  have hforward : 12 < p := by
    obtain ⟨_, _, hdec, _⟩ := hname
    exact hdec.forward
  obtain ⟨hcopy, hone, hcount⟩ := header_counts (by omega) one h.counts (by omega)
  have hquery := packetQueries_one hname (by omega)
  unfold packetParses
  rw [hcopy]
  simp only [hone, hquery, hcount]
  exact decide_eq_true (packetRecords_of_entries hentries)

/-- **Octets that end behind the question do not parse** when the header counts a record. -/
theorem not_parses {buf : Bytes} {question : Name} {log : Log} {p : Nat}
    (counts : Counts (memory buf) log) (one : Holds (memory buf) 4 [0, 1])
    (name : NameAt (memory buf) 12 question p) (stop : buf.length = p + 4)
    (limit : log.all.length < 65536) (some : log.all ≠ []) : packetParses buf = false := by
  have hforward : 12 < p := by
    obtain ⟨_, _, hdec, _⟩ := name
    exact hdec.forward
  obtain ⟨hcopy, hone, hcount⟩ := header_counts (by omega) one counts limit
  have hquery := packetQueries_one name stop.ge
  obtain ⟨n, hn⟩ := Nat.exists_eq_succ_of_ne_zero (List.length_pos_iff.mpr some).ne'
  unfold packetParses
  rw [hcopy]
  simp only [hone, hquery, hcount, hn]
  unfold packetRecords
  rw [← stop, dnsPacketGetname_behind (Nat.le_refl _)]
  exact decide_eq_false (fun h => by cases h)

end TinyDnssec
