import TinyDnssec.Base.Loop
import TinyDnssec.Message

/-!
# Building a response

`response.c`: the buffer a reply is written into, with the table of the names it already has. A
name whose tail is in the table is closed with a pointer to it, and every tail written out in full
is entered, as long as the table and the reach of a pointer allow.

The operations fail when the buffer is full, and a failure leaves behind what was written by then;
callers mostly give up, but not all do. So an operation answers `Except Response Response`.

`Idle` is the invariant between records, `Pending` the one inside a record: which octets of the
record in hand may still change, and that nothing else does. `rstart_spec`, the `Pending` lemmas and
`Pending.rfinish` say that a record written by `response_rstart`, any additions and
`response_rfinish` is in the message afterwards, whatever was compressed.
-/

namespace TinyDnssec

open Octets Loop

/-- The static variables of `response.c`. `bytes` is `response` up to `response_len`; `names` is the
table, with the position of each name. -/
structure Response where
  bytes : Bytes
  names : List (Name × Nat)
  dpos : Nat
  tctarget : Nat

abbrev Build := Except Response Response

def addbytes (buf : Bytes) (r : Response) : Build :=
  if buf.length > 65535 - r.bytes.length then .error r else .ok { r with bytes := r.bytes ++ buf }

/-- The entry of a name that is about to be written out, where there is room for one. -/
def enter (d : Name) (r : Response) : Response :=
  if dnsDomainLength d ≤ 128 ∧ r.bytes.length < 16384 ∧ r.names.length < 100 then
    { r with names := r.names ++ [(d, r.bytes.length)] }
  else r

def addname : Name → Response → Build
  | [], r => addbytes [0] r
  | l :: d, r =>
    match r.names.find? fun e => dnsDomainEqual (l :: d) e.1 with
    | some e => addbytes (be16 (49152 + e.2)) r
    | none => addbytes (UInt8.ofNat l.length :: l) (enter (l :: d) r) >>= addname d

/-- `response_query`, from the state an earlier reply has left. -/
def responseQuery (q : Name) (qtype qclass : Bytes) (r : Response) : Build := do
  let r ← addbytes [0, 0, 129, 128, 0, 1, 0, 0, 0, 0, 0, 0] { r with bytes := [], names := [] }
  let r ← addname q r
  let r ← addbytes qtype r
  let r ← addbytes qclass r
  .ok { r with tctarget := r.bytes.length }

def rstart (hidettl : Bool) (d : Name) (type : Bytes) (ttl : Nat) (r : Response) : Build := do
  let r ← addname d r
  let r ← addbytes type r
  let r ← addbytes dnsCIn r
  let r ← addbytes (be32 (if hidettl then 0 else ttl)) r
  let r ← addbytes [0, 0] r
  .ok { r with dpos := r.bytes.length }

/-- `if (!++response[x + 1]) ++response[x];` -/
def bump (buf : Bytes) (x : Nat) : Bytes :=
  let lo := buf.getD (x + 1) 0 + 1
  patch buf x [if lo = 0 then buf.getD x 0 + 1 else buf.getD x 0, lo]

/-- Where the header counts a section's records. -/
def Section.offset : Section → Nat
  | .answer => 6
  | .authority => 8
  | .additional => 10

def rfinish (s : Section) (r : Response) : Response :=
  { r with bytes := bump (patch r.bytes (r.dpos - 2) (be16 (r.bytes.length - r.dpos))) s.offset }

/-- `response_nxdomain` -/
def nxdomain (r : Response) : Response :=
  { r with bytes := patch r.bytes 2 [r.bytes.getD 2 0 ||| 4, r.bytes.getD 3 0 ||| 3] }

/-- `response_cname` -/
def responseCname (hidettl : Bool) (c d : Name) (ttl : Nat) (r : Response) : Build := do
  let r ← rstart hidettl c dnsTCname ttl r
  let r ← addname d r
  .ok (rfinish .answer r)

/-- `response_servfail` -/
def servfail (r : Response) : Response :=
  { r with bytes := patch r.bytes 3 [r.bytes.getD 3 0 ||| 2] }

/-- `response_id` -/
def responseId (id : Bytes) (r : Response) : Response := { r with bytes := patch r.bytes 0 id }

/-- `response_tc` -/
def responseTc (r : Response) : Response :=
  { r with bytes := (patch r.bytes 2 [r.bytes.getD 2 0 ||| 2]).take r.tctarget }

/-- `response[2] &= ~4`: the answer is not authoritative. -/
def clearAa (r : Response) : Response :=
  { r with bytes := patch r.bytes 2 [r.bytes.getD 2 0 &&& 251] }

/-- A section's count is zeroed and `response_len` set back to where the section began. -/
def cutBack (s : Section) (pos : Nat) (r : Response) : Response :=
  { r with bytes := (patch r.bytes s.offset [0, 0]).take pos }

/-! ## Sequences of operations -/

theorem addbytes_eq_ok {buf : Bytes} {r r' : Response} :
    addbytes buf r = .ok r' ↔
      buf.length ≤ 65535 - r.bytes.length ∧ r' = { r with bytes := r.bytes ++ buf } := by
  rw [addbytes]
  split
  · exact iff_of_false (fun h => by cases h) fun h => by omega
  · rw [Except.ok.injEq]
    exact ⟨fun h => ⟨by omega, h.symm⟩, fun h => h.2.symm⟩

/-! ## Names -/

/-- A table entry is true of a memory: at its position the name is written, beginning with a label,
not with a pointer, so that a pointer to it is the only one before the next label. -/
def Known (m : Memory) (e : Name × Nat) : Prop :=
  Valid e.1 ∧ e.2 < 16384 ∧ ∃ n stop cost, Decodes m e.2 n stop cost ∧
    cost ≤ 2 * span e.1 + 1 ∧ lowerName n = lowerName e.1

theorem Known.mono {m m' : Memory} {e : Name × Nat} (h : Known m e) (within : Within m m') :
    Known m' e := by
  obtain ⟨hvalid, hreach, n, stop, cost, hdec, hrest⟩ := h
  exact ⟨hvalid, hreach, n, stop, cost, hdec.mono within, hrest⟩

theorem Decodes.labels {m : Memory} {pos stop cost : Nat} {n : Name}
    (h : Decodes m pos n stop cost) : ∀ l ∈ n, ValidLabel l := by
  induction h with
  | root => exact fun _ h => absurd h List.not_mem_nil
  | label valid _ _ ih => exact fun k hk => (List.mem_cons.mp hk).elim (fun h => h ▸ valid) (ih k)
  | pointer _ _ _ _ _ ih => exact ih

/-- What decodes to a spelling of a valid name is a valid name. -/
theorem Decodes.valid {m : Memory} {pos stop cost : Nat} {n d : Name}
    (h : Decodes m pos n stop cost) (hd : Valid d) (same : lowerName n = lowerName d) : Valid n := by
  refine ⟨h.labels, ?_⟩
  rw [← span_lowerName, same, span_lowerName]
  exact hd.short

/-- What `response_addname` leaves behind. -/
structure Named (hole : Nat → Bool) (d : Name) (r r' : Response) : Prop where
  grown : r.bytes <+: r'.bytes
  limit : r'.bytes.length ≤ 65535
  dpos : r'.dpos = r.dpos
  tctarget : r'.tctarget = r.tctarget
  decodes : ∃ n cost, Decodes (stable hole r'.bytes) r.bytes.length n r'.bytes.length cost ∧
    cost ≤ 2 * span d + 2 ∧ lowerName n = lowerName d
  known : ∀ e ∈ r'.names, e ∈ r.names ∨ Known (stable hole r'.bytes) e

theorem stable_grown {hole : Nat → Bool} {buf buf' : Bytes} (grown : buf <+: buf') :
    Within (stable hole buf) (stable hole buf') := by
  obtain ⟨s, rfl⟩ := grown
  exact stable_append hole buf s

/-- The octets just added are stable when no hole reaches behind the old end. -/
theorem holds_stable_append {hole : Nat → Bool} {buf s : Bytes}
    (behind : ∀ i, buf.length ≤ i → hole i = false) :
    Holds (stable hole (buf ++ s)) buf.length s :=
  holds_stable (holds_append_right buf s) fun i h _ => behind i h

/-- The two octets of a pointer, and the position a decoder takes from them. -/
theorem pointer_octets {ptr : Nat} (reach : ptr < 16384) :
    UInt8.ofNat ((49152 + ptr) / 256) ≥ 192 ∧
    ((UInt8.ofNat ((49152 + ptr) / 256)).toNat - 192) * 256 + (UInt8.ofNat (49152 + ptr)).toNat =
      ptr := by
  have hhi : (UInt8.ofNat ((49152 + ptr) / 256)).toNat = (49152 + ptr) / 256 := by
    rw [UInt8.toNat_ofNat']
    omega
  refine ⟨UInt8.le_iff_toNat_le.mpr ?_, ?_⟩
  · rw [hhi]
    change 192 ≤ _
    omega
  · rw [hhi, UInt8.toNat_ofNat']
    omega

/-- **`response_addname` writes a name that decodes**, and every entry it makes in the table is
true. Only entries of names no longer than this one need to be true before: a longer name may be
under construction. -/
theorem addname_spec {hole : Nat → Bool} {d : Name} (valid : Valid d) {r r' : Response}
    (behind : ∀ i, r.bytes.length ≤ i → hole i = false)
    (table : ∀ e ∈ r.names, Valid e.1 ∧ (span e.1 ≤ span d → Known (stable hole r.bytes) e))
    (h : addname d r = .ok r') : Named hole d r r' := by
  induction d generalizing r with
  | nil =>
    obtain ⟨hroom, rfl⟩ := addbytes_eq_ok.mp h
    have hroot := (holds_cons.mp (@holds_stable_append hole r.bytes [0] behind)).1
    have hlen : (r.bytes ++ [0]).length = r.bytes.length + 1 := List.length_append
    refine ⟨List.prefix_append _ _, ?_, rfl, rfl, ⟨[], 1, ?_, by decide, rfl⟩, fun e he => .inl he⟩
    · rw [List.length_singleton] at hroom
      simp only [hlen]
      omega
    · simp only [hlen]
      exact .root hroot
  | cons l d ih =>
    rw [addname] at h
    split at h
    · rename_i e hfind
      obtain ⟨hroom, rfl⟩ := addbytes_eq_ok.mp h
      have hmem := List.mem_of_find?_eq_some hfind
      have hequal := List.find?_some hfind
      obtain ⟨hvalid, hknown⟩ := table e hmem
      have hsame : lowerName (l :: d) = lowerName e.1 := (dnsDomainEqual_iff valid hvalid).mp hequal
      have hspan : span e.1 = span (l :: d) := by rw [← span_lowerName e.1, ← hsame, span_lowerName]
      obtain ⟨_, hreach, n, stop, cost, hdec, hcost, hlower⟩ := hknown hspan.le
      have hpair := @holds_stable_append hole r.bytes (be16 (49152 + e.2)) behind
      obtain ⟨hhi, hrest⟩ := holds_cons.mp hpair
      obtain ⟨hlo, _⟩ := holds_cons.mp hrest
      obtain ⟨hhigh, htarget⟩ := pointer_octets hreach
      have hlen : (r.bytes ++ be16 (49152 + e.2)).length = r.bytes.length + 2 := List.length_append
      refine ⟨List.prefix_append _ _, ?_, rfl, rfl, ⟨n, cost + 1, ?_, ?_, ?_⟩, fun e he => .inl he⟩
      · rw [be16_length] at hroom
        simp only [hlen]
        omega
      · exact .pointer hhigh hhi hlo (htarget.symm ▸ hdec.mono (stable_append hole _ _)) hlen
      · rw [← hspan]
        omega
      · rw [hlower, hsame]
    · obtain ⟨r₁, hadd, hgo⟩ := bind_eq_ok.mp h
      obtain ⟨hroom, rfl⟩ := addbytes_eq_ok.mp hadd
      have henter : (enter (l :: d) r).bytes = r.bytes := by unfold enter; split <;> rfl
      have hdpos : (enter (l :: d) r).dpos = r.dpos := by unfold enter; split <;> rfl
      have htctarget : (enter (l :: d) r).tctarget = r.tctarget := by unfold enter; split <;> rfl
      have hnames : ∀ e ∈ (enter (l :: d) r).names, e ∈ r.names ∨
          e = (l :: d, r.bytes.length) ∧ r.bytes.length < 16384 := by
        intro e he
        unfold enter at he
        split at he
        · rename_i hroom
          rcases List.mem_append.mp he with he | he
          · exact .inl he
          · exact .inr ⟨List.mem_singleton.mp he, hroom.2.1⟩
        · exact .inl he
      have hlabel := valid.head
      have hthere := @holds_stable_append hole r.bytes (UInt8.ofNat l.length :: l) behind
      simp only [henter] at hgo
      have hlen : (r.bytes ++ UInt8.ofNat l.length :: l).length = r.bytes.length + 1 + l.length := by
        rw [List.length_append, List.length_cons]
        omega
      have hnamed := ih valid.tail (fun i hi => behind i (by simp only [hlen] at hi; omega)) ?_ hgo
      · obtain ⟨hgrown, hlimit, hd, ht, ⟨n, cost, hdec, hcost, hlower⟩, hknown⟩ := hnamed
        simp only [hlen] at hdec
        have hwhole := Decodes.label hlabel (hthere.mono (stable_grown hgrown)) hdec
        have hsame : lowerName (l :: n) = lowerName (l :: d) := by
          rw [lowerName_cons, lowerName_cons, hlower]
        refine ⟨(List.prefix_append _ _).trans hgrown, hlimit, hd.trans hdpos, ht.trans htctarget,
          ⟨l :: n, l.length + 1 + cost, hwhole, ?_, hsame⟩, fun e he => ?_⟩
        · rw [span_cons]
          omega
        · rcases hknown e he with he | he
          · rcases hnames e he with he | ⟨rfl, hreach⟩
            · exact .inl he
            · refine .inr ⟨valid, hreach, l :: n, _, _, hwhole, ?_, hsame⟩
              rw [span_cons]
              have := hlabel.length_pos
              omega
          · exact .inr he
      · intro e he
        rcases hnames e he with he | ⟨rfl, _⟩
        · obtain ⟨hvalid, hknown⟩ := table e he
          refine ⟨hvalid, fun hle => (hknown ?_).mono (stable_append hole _ _)⟩
          rw [span_cons]
          omega
        · refine ⟨valid, fun hle => ?_⟩
          rw [span_cons] at hle
          omega

theorem Named.nameAt {hole : Nat → Bool} {d : Name} {r r' : Response} (valid : Valid d)
    (h : Named hole d r r') : NameAt (stable hole r'.bytes) r.bytes.length d r'.bytes.length := by
  obtain ⟨n, cost, hdec, hcost, hlower⟩ := h.decodes
  have hshort := valid.short
  exact ⟨n, cost, hdec, by omega, hdec.valid valid hlower, hlower⟩

/-! ## Counting a record -/

theorem bump_length {buf : Bytes} {x : Nat} (fits : x + 2 ≤ buf.length) :
    (bump buf x).length = buf.length := patch_length fits

theorem getElem?_bump {buf : Bytes} {x i : Nat} (fits : x + 2 ≤ buf.length)
    (out : i < x ∨ x + 2 ≤ i) : (bump buf x)[i]? = buf[i]? := getElem?_patch fits out

theorem holds_bump {buf : Bytes} {x n : Nat} (fits : x + 2 ≤ buf.length)
    (h : Holds (memory buf) x (be16 n)) : Holds (memory (bump buf x)) x (be16 (n + 1)) := by
  obtain ⟨hhi, hrest⟩ := holds_cons.mp h
  obtain ⟨hlo, _⟩ := holds_cons.mp hrest
  have hhi : buf.getD x 0 = UInt8.ofNat (n / 256) := by
    rw [List.getD_eq_getElem?_getD, show buf[x]? = _ from hhi]; rfl
  have hlo : buf.getD (x + 1) 0 = UInt8.ofNat n := by
    rw [List.getD_eq_getElem?_getD, show buf[x + 1]? = _ from hlo]; rfl
  have hnext (k : Nat) : UInt8.ofNat k + 1 = UInt8.ofNat (k + 1) := (UInt8.ofNat_add k 1).symm
  have hcarry : (if UInt8.ofNat (n + 1) = 0 then UInt8.ofNat (n / 256 + 1) else UInt8.ofNat (n / 256)) =
      UInt8.ofNat ((n + 1) / 256) := by
    have hzero : UInt8.ofNat (n + 1) = 0 ↔ (n + 1) % 256 = 0 := by
      rw [← UInt8.toNat_inj, UInt8.toNat_ofNat']
      exact Iff.rfl
    split
    · rename_i hz
      congr 1
      have := hzero.mp hz
      omega
    · rename_i hz
      congr 1
      have := mt hzero.mpr hz
      omega
  have hbytes : [if buf.getD (x + 1) 0 + 1 = 0 then buf.getD x 0 + 1 else buf.getD x 0,
      buf.getD (x + 1) 0 + 1] = be16 (n + 1) := by
    rw [hhi, hlo, hnext, hnext, hcarry]
    rfl
  rw [bump]
  simp only [hbytes]
  exact holds_patch fits

/-! ## Between records -/

/-- The header of a message may change until the message is sent. -/
def headerHole (i : Nat) : Bool := decide (i < 12)

/-- A record in hand whose fixed fields begin at `f`: those may change too. -/
def recordHole (f i : Nat) : Bool := decide (i < 12) || (decide (f ≤ i) && decide (i < f + 10))

/-- The buffer is a message with this question and these records, and the table of names is true of
the part that no longer changes. -/
structure Idle (r : Response) (question : Name) (log : Log) : Prop where
  header : 12 ≤ r.bytes.length
  limit : r.bytes.length ≤ 65535
  counts : Counts (memory r.bytes) log
  body : Body (stable headerHole r.bytes) question log r.bytes.length
  table : ∀ e ∈ r.names, Known (stable headerHole r.bytes) e

theorem Idle.message {r : Response} {question : Name} {log : Log} (h : Idle r question log) :
    Says r.bytes question log :=
  ⟨h.counts, h.body.mono (stable_within _ _)⟩

/-- What later operations leave of a message: its flags and everything behind its header. -/
structure Extends (r r' : Response) : Prop where
  flags : ∀ i, i < 6 → r'.bytes[i]? = r.bytes[i]?
  records : r.bytes.drop 12 <+: r'.bytes.drop 12

theorem Extends.refl (r : Response) : Extends r r := ⟨fun _ _ => rfl, List.prefix_refl _⟩

theorem Extends.trans {r r' r'' : Response} (h : Extends r r') (h' : Extends r' r'') :
    Extends r r'' :=
  ⟨fun i hi => (h'.flags i hi).trans (h.flags i hi), h.records.trans h'.records⟩

theorem Extends.getElem? {r r' : Response} (h : Extends r r') {i : Nat} (lo : 12 ≤ i)
    (hi : i < r.bytes.length) : r'.bytes[i]? = r.bytes[i]? := by
  have hdrop : i - 12 < (r.bytes.drop 12).length := by
    rw [List.length_drop]
    omega
  have hat := List.prefix_iff_getElem?.mp h.records (i - 12) hdrop
  rw [List.getElem?_drop, List.getElem_drop, ← List.getElem?_eq_getElem,
    Nat.add_sub_cancel' lo] at hat
  exact hat

theorem Extends.length_le {r r' : Response} (h : Extends r r') (header : 12 ≤ r'.bytes.length) :
    r.bytes.length ≤ r'.bytes.length := by
  have hlen := h.records.length_le
  rw [List.length_drop, List.length_drop] at hlen
  omega

/-! ## Inside a record -/

/-- A record is being added to a message: its owner and fixed fields stand behind the message, the
latter with no length yet, and behind them the pieces of its data so far. -/
structure Pending (r₀ r : Response) (question : Name) (log : Log) (f : Nat) (e : Entry) : Prop where
  idle : Idle r₀ question log
  grown : r₀.bytes <+: r.bytes
  limit : r.bytes.length ≤ 65535
  dpos : r.dpos = f + 10
  behind : r₀.bytes.length ≤ f
  fits : f + 10 ≤ r.bytes.length
  typeOctets : e.type.length = 2
  clsOctets : e.cls.length = 2
  owner : NameAt (stable (recordHole f) r.bytes) r₀.bytes.length e.owner f
  fixed : Holds (memory r.bytes) f (fixedFields e.type e.cls e.ttl 0)
  parts : PartsAt (stable (recordHole f) r.bytes) (f + 10) e.rdata r.bytes.length
  table : ∀ e ∈ r.names, Known (stable (recordHole f) r.bytes) e

theorem recordHole_behind {f i : Nat} (hf : 12 ≤ f) (h : f + 10 ≤ i) : recordHole f i = false := by
  simp only [recordHole, Bool.or_eq_false_iff, Bool.and_eq_false_iff, decide_eq_false_iff_not]
  omega

/-- What was stable before a record is begun stays stable inside it. -/
theorem stable_begin {buf buf' : Bytes} {f : Nat} (grown : buf <+: buf') (hf : buf.length ≤ f) :
    Within (stable headerHole buf) (stable (recordHole f) buf') := by
  refine stable_mono (fun i hi h => ?_) fun i hi _ => ?_
  · simp only [recordHole, Bool.or_eq_true, Bool.and_eq_true, decide_eq_true_eq] at h
    exact decide_eq_true (by omega)
  · obtain ⟨s, rfl⟩ := grown
    exact List.getElem?_append_left hi

theorem fixedFields_length {type cls : Bytes} (htype : type.length = 2) (hcls : cls.length = 2)
    (ttl datalen : Nat) : (fixedFields type cls ttl datalen).length = 10 := by
  simp only [fixedFields, List.length_append, htype, hcls, be32_length, be16_length]

/-- **`response_rstart` begins a record.** -/
theorem rstart_spec {r₀ r : Response} {question : Name} {log : Log} (idle : Idle r₀ question log)
    {hide : Bool} {d : Name} (valid : Valid d) {type : Bytes} (two : type.length = 2) {ttl : Nat}
    (h : rstart hide d type ttl r₀ = .ok r) :
    ∃ f, Pending r₀ r question log f ⟨d, type, dnsCIn, if hide then 0 else ttl, []⟩ := by
  simp only [rstart, bind_eq_ok, addbytes_eq_ok] at h
  obtain ⟨r₁, hname, _, ⟨_, rfl⟩, _, ⟨_, rfl⟩, _, ⟨_, rfl⟩, _, ⟨hroom, rfl⟩, h⟩ := h
  cases h
  have hnamed := @addname_spec headerHole d valid r₀ r₁
    (fun i hi => decide_eq_false (by have := idle.header; omega))
    (fun e he => ⟨(idle.table e he).1, fun _ => idle.table e he⟩) hname
  have hgrown := hnamed.grown.length_le
  have hheader := idle.header
  simp only [List.append_assoc] at hroom ⊢
  generalize hfixed : type ++ (dnsCIn ++ (be32 (if hide = true then 0 else ttl) ++ [0, 0])) = s at *
  have hs : s = fixedFields type dnsCIn (if hide then 0 else ttl) 0 := by
    rw [← hfixed, fixedFields, List.append_assoc, List.append_assoc]
    rfl
  have hlen : s.length = 10 := hs ▸ fixedFields_length two rfl _ _
  have hstable := stable_begin (List.prefix_append r₁.bytes s) (Nat.le_refl _)
  refine ⟨r₁.bytes.length, idle, hnamed.grown.trans (List.prefix_append _ _), ?_, ?_, hgrown, ?_, two,
    rfl, (hnamed.nameAt valid).mono hstable, ?_, ?_, fun e he => ?_⟩
  · have hlimit := hnamed.limit
    simp only [← hfixed, List.length_append] at hroom ⊢
    simp only [be32_length, List.length_cons, List.length_nil] at hroom ⊢
    omega
  · rw [List.length_append, hlen]
  · rw [List.length_append, hlen]
  · rw [← hs]
    exact holds_append_right _ _
  · change _ = _
    rw [List.length_append, hlen]
  · rcases hnamed.known e he with he | he
    · exact (idle.table e he).mono (stable_begin (hnamed.grown.trans (List.prefix_append _ _)) hgrown)
    · exact he.mono hstable

theorem Pending.far {r₀ r : Response} {question : Name} {log : Log} {f : Nat} {e : Entry}
    (h : Pending r₀ r question log f e) : 12 ≤ f :=
  h.idle.header.trans h.behind

/-- Octets are added to the data of the record in hand. -/
theorem Pending.addbytes {r₀ r r' : Response} {question : Name} {log : Log} {f : Nat} {e : Entry}
    (h : Pending r₀ r question log f e) {s : Bytes} (hadd : addbytes s r = .ok r') :
    Pending r₀ r' question log f { e with rdata := e.rdata ++ [.octets s] } := by
  obtain ⟨hroom, rfl⟩ := addbytes_eq_ok.mp hadd
  have hlimit := h.limit
  have hfits := h.fits
  have hstable := stable_append (recordHole f) r.bytes s
  have hlen : (r.bytes ++ s).length = r.bytes.length + s.length := List.length_append
  refine ⟨h.idle, h.grown.trans (List.prefix_append _ _), ?_, h.dpos, h.behind, ?_, h.typeOctets,
    h.clsOctets, h.owner.mono hstable, h.fixed.mono (within_append _ _), ?_,
    fun e he => (h.table e he).mono hstable⟩
  · simp only [hlen]
    omega
  · simp only [hlen]
    omega
  · refine (h.parts.mono hstable).append ⟨?_, ?_⟩
    · exact holds_stable_append fun i hi => recordHole_behind h.far (hfits.trans hi)
    · change _ = _
      simp only [hlen]

/-- A name is added to the data of the record in hand. -/
theorem Pending.addname {r₀ r r' : Response} {question : Name} {log : Log} {f : Nat} {e : Entry}
    (h : Pending r₀ r question log f e) {d : Name} (valid : Valid d)
    (hadd : addname d r = .ok r') :
    Pending r₀ r' question log f { e with rdata := e.rdata ++ [.name d] } := by
  have hnamed := @addname_spec (recordHole f) d valid r r'
    (fun i hi => recordHole_behind h.far (h.fits.trans hi))
    (fun e he => ⟨(h.table e he).1, fun _ => h.table e he⟩) hadd
  have hstable := @stable_grown (recordHole f) _ _ hnamed.grown
  obtain ⟨s, hs⟩ := hnamed.grown
  have hwithin : Within (memory r.bytes) (memory r'.bytes) := hs ▸ within_append r.bytes s
  refine ⟨h.idle, h.grown.trans hnamed.grown, hnamed.limit, hnamed.dpos.trans h.dpos, h.behind,
    h.fits.trans hnamed.grown.length_le, h.typeOctets, h.clsOctets, h.owner.mono hstable,
    h.fixed.mono hwithin, ?_, fun e he => ?_⟩
  · exact (h.parts.mono hstable).append ⟨_, hnamed.nameAt valid, rfl⟩
  · rcases hnamed.known e he with he | he
    · exact (h.table e he).mono hstable
    · exact he

/-- Writing over the class of the record in hand. -/
def patchCls (f : Nat) (cls : Bytes) (r : Response) : Response :=
  { r with bytes := patch r.bytes (f + 2) cls }

/-- A patch inside the fixed fields of the record in hand leaves everything else stable. -/
theorem stable_patch {buf s : Bytes} {f pos : Nat} (fits : f + 10 ≤ buf.length) (lo : f ≤ pos)
    (hi : pos + s.length ≤ f + 10) :
    Within (stable (recordHole f) buf) (stable (recordHole f) (patch buf pos s)) := by
  refine stable_mono (fun _ _ h => h) fun i _ hout => ?_
  refine getElem?_patch (by omega) ?_
  simp only [recordHole, Bool.or_eq_false_iff, Bool.and_eq_false_iff, decide_eq_false_iff_not] at hout
  omega

theorem Pending.patchCls {r₀ r : Response} {question : Name} {log : Log} {f : Nat} {e : Entry}
    (h : Pending r₀ r question log f e) {cls : Bytes} (two : cls.length = 2) :
    Pending r₀ (patchCls f cls r) question log f { e with cls := cls } := by
  have hfits := h.fits
  have hbehind := h.behind
  have hcls : (f + 2) + cls.length ≤ r.bytes.length := by omega
  have hlen : (patch r.bytes (f + 2) cls).length = r.bytes.length := patch_length hcls
  have hstable := @stable_patch r.bytes cls f (f + 2) hfits (by omega) (by omega)
  have hfixed := h.fixed
  simp only [fixedFields, holds_append, List.length_append, h.typeOctets, h.clsOctets,
    be32_length] at hfixed
  obtain ⟨⟨⟨htype, _⟩, httl⟩, hdlen⟩ := hfixed
  have hkeep {s : Bytes} {pos : Nat} (hs : Holds (memory r.bytes) pos s)
      (out : pos + s.length ≤ f + 2 ∨ f + 4 ≤ pos) :
      Holds (memory (patch r.bytes (f + 2) cls)) pos s := by
    intro i b hb
    obtain ⟨hi, _⟩ := List.getElem?_eq_some_iff.mp hb
    exact (getElem?_patch hcls (by omega)).trans (hs i b hb)
  refine ⟨h.idle, ?_, ?_, h.dpos, h.behind, ?_, h.typeOctets, two, h.owner.mono hstable, ?_, ?_,
    fun e he => (h.table e he).mono hstable⟩
  · obtain ⟨s, hs⟩ := h.grown
    refine List.prefix_iff_getElem?.mpr fun i hi => ?_
    exact (getElem?_patch hcls (by omega)).trans (List.prefix_iff_getElem?.mp h.grown i hi)
  · exact hlen.le.trans h.limit
  · exact hfits.trans hlen.ge
  · simp only [fixedFields, holds_append, List.length_append, h.typeOctets, two, be32_length]
    exact ⟨⟨⟨hkeep htype (.inl (by rw [h.typeOctets])), holds_patch hcls⟩,
      hkeep httl (.inr (by omega))⟩, hkeep hdlen (.inr (by omega))⟩
  · have hparts := h.parts.mono hstable
    rwa [← hlen] at hparts

/-! ## Closing a record -/

theorem Section.offset_bounds (s : Section) : 6 ≤ s.offset ∧ s.offset + 2 ≤ 12 := by
  cases s <;> decide

/-- The records of one section. -/
def Log.part (log : Log) : Section → List Entry
  | .answer => log.answer
  | .authority => log.authority
  | .additional => log.additional

theorem Log.part_add_self (log : Log) (s : Section) (es : List Entry) :
    (log.add s es).part s = log.part s ++ es := by
  cases s <;> rfl

theorem Log.part_add_other (log : Log) {s t : Section} (other : t ≠ s) (es : List Entry) :
    (log.add s es).part t = log.part t := by
  cases s <;> cases t <;> first | rfl | exact absurd rfl other

/-- The counts are one field for each section. -/
theorem counts_iff {m : Memory} {log : Log} :
    Counts m log ↔ ∀ s : Section, Holds m s.offset (be16 (log.part s).length) := by
  unfold Counts
  rw [holds_append, holds_append]
  constructor
  · rintro ⟨⟨hanswer, hauthority⟩, hadditional⟩ s
    cases s with
    | answer => exact hanswer
    | authority => exact hauthority
    | additional => exact hadditional
  · intro h
    exact ⟨⟨h .answer, h .authority⟩, h .additional⟩

theorem Section.offset_apart {s t : Section} (other : t ≠ s) :
    t.offset + 2 ≤ s.offset ∨ s.offset + 2 ≤ t.offset := by
  cases s <;> cases t <;> first | exact absurd rfl other | decide

/-- Octets outside a field survive what is done to the field. -/
theorem holds_of_agree {buf buf' s : Bytes} {pos : Nat} (h : Holds (memory buf) pos s)
    (agree : ∀ i, pos ≤ i → i < pos + s.length → buf'[i]? = buf[i]?) :
    Holds (memory buf') pos s := by
  intro i b hb
  obtain ⟨hi, _⟩ := List.getElem?_eq_some_iff.mp hb
  show buf'[pos + i]? = some b
  rw [agree (pos + i) (Nat.le_add_right _ _) (by omega)]
  exact h i b hb

section rfinish

variable {r₀ r : Response} {question : Name} {log : Log} {f : Nat} {e : Entry}

theorem Pending.rfinish_length (h : Pending r₀ r question log f e) (s : Section) :
    (rfinish s r).bytes.length = r.bytes.length := by
  have hfits := h.fits
  have hfar := h.far
  have hdpos := h.dpos
  have hs := s.offset_bounds
  have hpatch : (patch r.bytes (r.dpos - 2) (be16 (r.bytes.length - r.dpos))).length =
      r.bytes.length := patch_length (by rw [be16_length]; omega)
  exact (bump_length (by omega)).trans hpatch

/-- `response_rfinish` writes the length of the data and one count. -/
theorem Pending.getElem?_rfinish (h : Pending r₀ r question log f e) (s : Section) {i : Nat}
    (count : i < s.offset ∨ s.offset + 2 ≤ i) (datalen : i < f + 8 ∨ f + 10 ≤ i) :
    (rfinish s r).bytes[i]? = r.bytes[i]? := by
  have hfits := h.fits
  have hfar := h.far
  have hdpos := h.dpos
  have hs := s.offset_bounds
  have hin : r.dpos - 2 + (be16 (r.bytes.length - r.dpos)).length ≤ r.bytes.length := by
    rw [be16_length]
    omega
  show (bump _ s.offset)[i]? = _
  rw [getElem?_bump (by rw [patch_length hin]; omega) count, getElem?_patch hin]
  rw [be16_length]
  omega

theorem Pending.holds_datalen (h : Pending r₀ r question log f e) (s : Section) :
    Holds (memory (rfinish s r).bytes) (f + 8) (be16 (r.bytes.length - (f + 10))) := by
  have hfits := h.fits
  have hfar := h.far
  have hdpos := h.dpos
  have hs := s.offset_bounds
  have hin : r.dpos - 2 + (be16 (r.bytes.length - r.dpos)).length ≤ r.bytes.length := by
    rw [be16_length]
    omega
  have hwritten := holds_patch hin
  rw [hdpos, show f + 10 - 2 = f + 8 from rfl] at hwritten
  refine holds_of_agree hwritten fun i hi _ => ?_
  show (bump (patch r.bytes (r.dpos - 2) (be16 (r.bytes.length - r.dpos))) s.offset)[i]? = _
  rw [getElem?_bump (by rw [patch_length hin]; omega) (.inr (by omega)), hdpos,
    show f + 10 - 2 = f + 8 from rfl]

theorem Pending.holds_count (h : Pending r₀ r question log f e) (s t : Section) :
    Holds (memory (rfinish s r).bytes) t.offset (be16 ((log.add s [e]).part t).length) := by
  have hfits := h.fits
  have hfar := h.far
  have hdpos := h.dpos
  have hs := s.offset_bounds
  have ht := t.offset_bounds
  obtain ⟨more, hmore⟩ := h.grown
  have hbefore : Holds (memory r.bytes) t.offset (be16 (log.part t).length) :=
    (counts_iff.mp h.idle.counts t).mono (hmore ▸ within_append r₀.bytes more)
  by_cases hother : t = s
  · subst hother
    rw [Log.part_add_self, List.length_append, List.length_singleton]
    have hin : r.dpos - 2 + (be16 (r.bytes.length - r.dpos)).length ≤ r.bytes.length := by
      rw [be16_length]
      omega
    apply holds_bump
    · rw [patch_length hin]
      omega
    · refine holds_of_agree hbefore fun i _ hi => getElem?_patch hin (.inl ?_)
      rw [be16_length] at hi
      omega
  · rw [Log.part_add_other log hother]
    have hapart := Section.offset_apart hother
    refine holds_of_agree hbefore fun i _ hi => h.getElem?_rfinish s ?_ (.inl ?_)
    · rw [be16_length] at hi
      omega
    · rw [be16_length] at hi
      omega

/-- What was stable inside the record is stable after it. -/
theorem Pending.stable_rfinish (h : Pending r₀ r question log f e) (s : Section) :
    Within (stable (recordHole f) r.bytes) (stable headerHole (rfinish s r).bytes) := by
  have hs := s.offset_bounds
  refine stable_mono (fun i _ hi => ?_) fun i _ hout => ?_
  · unfold recordHole
    rw [show decide (i < 12) = true from hi]
    rfl
  · simp only [recordHole, Bool.or_eq_false_iff, Bool.and_eq_false_iff,
      decide_eq_false_iff_not] at hout
    exact h.getElem?_rfinish s (.inr (by omega)) (by omega)

/-- The fixed fields with the length of the data filled in. -/
theorem Pending.holds_fixed (h : Pending r₀ r question log f e) (s : Section) :
    Holds (stable headerHole (rfinish s r).bytes) f
      (fixedFields e.type e.cls e.ttl (r.bytes.length - (f + 10))) := by
  have hfar := h.far
  have hs := s.offset_bounds
  refine holds_stable ?_ fun i hi _ => decide_eq_false (by omega)
  have hfixed := h.fixed
  unfold fixedFields at hfixed ⊢
  rw [holds_append] at hfixed ⊢
  have hlen : (e.type ++ e.cls ++ be32 e.ttl).length = 8 := by
    simp only [List.length_append, h.typeOctets, h.clsOctets, be32_length]
  refine ⟨holds_of_agree hfixed.1 fun i _ hi => ?_, ?_⟩
  · exact h.getElem?_rfinish s (.inr (by omega)) (.inl (by omega))
  · rw [hlen]
    exact h.holds_datalen s

/-- **`response_rfinish` closes the record**: it is the message's last one, in its section. -/
theorem Pending.rfinish (h : Pending r₀ r question log f e) {s : Section} (isOpen : log.Open s) :
    Idle (rfinish s r) question (log.add s [e]) := by
  have hfits := h.fits
  have hfar := h.far
  have hlen := h.rfinish_length s
  have hstable := h.stable_rfinish s
  have hbefore : Within (stable headerHole r₀.bytes) (stable headerHole (TinyDnssec.rfinish s r).bytes) :=
    (stable_begin h.grown h.behind).trans hstable
  refine ⟨by omega, hlen.le.trans h.limit, counts_iff.mpr (h.holds_count s), ?_, fun e he =>
    (h.table e he).mono hstable⟩
  obtain ⟨p, hquestion, hentries⟩ := h.idle.body
  refine ⟨p, hquestion.mono hbefore, ?_⟩
  rw [Log.all_add isOpen, hlen]
  refine (hentries.mono hbefore).append ⟨r.bytes.length, ?_, rfl⟩
  have hlimit := h.limit
  exact ⟨f, h.owner.mono hstable, h.typeOctets, h.clsOctets, hfits, by omega, h.holds_fixed s,
    h.parts.mono hstable⟩

/-- Closing a record changes neither the flags nor what stood in front of the record. -/
theorem Pending.extends (h : Pending r₀ r question log f e) (s : Section) :
    Extends r₀ (TinyDnssec.rfinish s r) := by
  have hs := s.offset_bounds
  have hbehind := h.behind
  have hheader := h.idle.header
  obtain ⟨more, hmore⟩ := h.grown
  have hold (i : Nat) (hi : i < r₀.bytes.length) : r.bytes[i]? = r₀.bytes[i]? := by
    rw [← hmore, List.getElem?_append_left hi]
  refine ⟨fun i hi => ?_, ?_⟩
  · rw [h.getElem?_rfinish s (.inl (by omega)) (.inl (by omega)), hold i (by omega)]
  · refine List.prefix_iff_getElem?.mpr fun i hi => ?_
    rw [List.length_drop] at hi
    rw [List.getElem?_drop, h.getElem?_rfinish s (.inr (by omega)) (.inl (by omega)),
      hold (12 + i) (by omega), List.getElem_drop, List.getElem?_eq_getElem (by omega)]

end rfinish

/-! ## The question and the flags -/

/-- **`response_query` makes a message with no records.** -/
theorem responseQuery_idle {q : Name} (valid : Valid q) {qtype qclass : Bytes}
    (two : qtype.length = 2) (clsTwo : qclass.length = 2) {r r' : Response}
    (h : responseQuery q qtype qclass r = .ok r') : Idle r' q {} := by
  simp only [responseQuery, bind_eq_ok, addbytes_eq_ok] at h
  obtain ⟨_, ⟨_, rfl⟩, r₁, hname, _, ⟨_, rfl⟩, _, ⟨hroom, rfl⟩, h⟩ := h
  cases h
  have hheader : ([] ++ [0, 0, 129, 128, 0, 1, 0, 0, 0, 0, 0, 0] : Bytes).length = 12 := rfl
  have hcounts : ([] ++ [0, 0, 129, 128, 0, 1, 0, 0, 0, 0, 0, 0] : Bytes).drop 6 = [0, 0, 0, 0, 0, 0] := rfl
  generalize ([] ++ [0, 0, 129, 128, 0, 1, 0, 0, 0, 0, 0, 0] : Bytes) = start at *
  have hnamed := @addname_spec headerHole q valid _ r₁
    (fun i hi => decide_eq_false (Nat.not_lt.mpr (hheader.symm.le.trans hi)))
    (fun _ he => absurd he List.not_mem_nil) hname
  have hgrown := hnamed.grown.length_le
  have hlimit := hnamed.limit
  have hstable : Within (stable headerHole r₁.bytes)
      (stable headerHole (r₁.bytes ++ qtype ++ qclass)) :=
    (stable_append _ _ _).trans (stable_append _ _ _)
  obtain ⟨more, hmore⟩ := hnamed.grown
  have hlen : (r₁.bytes ++ qtype ++ qclass).length = r₁.bytes.length + 4 := by
    rw [List.length_append, List.length_append, two, clsTwo]
  refine ⟨?_, ?_, ?_, ?_, fun e he => ?_⟩
  · show 12 ≤ (r₁.bytes ++ qtype ++ qclass).length
    rw [← hheader, hlen]
    exact hgrown.trans (Nat.le_add_right _ 4)
  · show (r₁.bytes ++ qtype ++ qclass).length ≤ 65535
    rw [List.length_append, two] at hroom
    rw [hlen]
    omega
  · show Counts (memory (r₁.bytes ++ qtype ++ qclass)) _
    have hwithin := (within_append r₁.bytes qtype).trans (within_append _ qclass)
    rw [← hmore] at hwithin ⊢
    refine Holds.mono ?_ ((within_append _ more).trans hwithin)
    rw [holds_memory]
    exact hcounts ▸ List.prefix_refl _
  · have hquestion : NameAt (stable headerHole r₁.bytes) 12 q r₁.bytes.length :=
      hheader ▸ hnamed.nameAt valid
    exact ⟨r₁.bytes.length, hquestion.mono hstable, hlen⟩
  · rcases hnamed.known e he with he | he
    · exact absurd he List.not_mem_nil
    · exact he.mono hstable

theorem Idle.of_bytes {r r' : Response} {question : Name} {log : Log} (h : Idle r question log)
    (length : r'.bytes.length = r.bytes.length)
    (agree : ∀ i, 6 ≤ i → r'.bytes[i]? = r.bytes[i]?) (names : r'.names = r.names) :
    Idle r' question log := by
  have hstable : Within (stable headerHole r.bytes) (stable headerHole r'.bytes) := by
    refine stable_mono (fun _ _ hi => hi) fun i _ hout => agree i ?_
    have : ¬i < 12 := of_decide_eq_false hout
    omega
  refine ⟨length ▸ h.header, length ▸ h.limit, ?_, ?_, fun e he => ?_⟩
  · exact holds_of_agree h.counts fun i hi _ => agree i hi
  · rw [length]
    exact h.body.mono hstable
  · exact (h.table e (names ▸ he)).mono hstable

/-- Writing over flags changes nothing else. -/
theorem Idle.patchFlags {r r' : Response} {question : Name} {log : Log} (h : Idle r question log)
    {s : Bytes} (bytes : r'.bytes = patch r.bytes 2 s) (names : r'.names = r.names)
    (short : s.length ≤ 2) :
    Idle r' question log ∧ r'.bytes.length = r.bytes.length ∧
      ∀ i, i < 2 ∨ 2 + s.length ≤ i → r'.bytes[i]? = r.bytes[i]? := by
  have hheader := h.header
  have hin : 2 + s.length ≤ r.bytes.length := by omega
  have hlen : r'.bytes.length = r.bytes.length := bytes ▸ patch_length hin
  have hagree : ∀ i, i < 2 ∨ 2 + s.length ≤ i → r'.bytes[i]? = r.bytes[i]? :=
    fun i hi => bytes ▸ getElem?_patch hin hi
  exact ⟨h.of_bytes hlen (fun i hi => hagree i (by omega)) names, hlen, hagree⟩

theorem Idle.nxdomain {r : Response} {question : Name} {log : Log} (h : Idle r question log) :
    Idle (nxdomain r) question log :=
  (@Idle.patchFlags r (TinyDnssec.nxdomain r) _ _ h _ rfl rfl (Nat.le_refl 2)).1

theorem Idle.clearAa {r : Response} {question : Name} {log : Log} (h : Idle r question log) :
    Idle (clearAa r) question log :=
  (@Idle.patchFlags r (TinyDnssec.clearAa r) _ _ h _ rfl rfl (Nat.le_succ 1)).1

/-! ## Cutting a message back -/

/-- The log without a section's records. -/
def Log.without (log : Log) : Section → Log
  | .answer => { log with answer := [] }
  | .authority => { log with authority := [] }
  | .additional => { log with additional := [] }

theorem Log.part_without (log : Log) (s t : Section) :
    (log.without s).part t = if t = s then [] else log.part t := by
  cases s <;> cases t <;> rfl

section cutBack

variable {r : Response} {pos : Nat}

theorem cutBack_length (s : Section) (header : 12 ≤ pos) (reach : pos ≤ r.bytes.length) :
    (cutBack s pos r).bytes.length = pos := by
  have hs := s.offset_bounds
  show ((patch r.bytes s.offset [0, 0]).take pos).length = pos
  rw [List.length_take, patch_length (show s.offset + 2 ≤ r.bytes.length by omega)]
  omega

theorem getElem?_cutBack (s : Section) (header : 12 ≤ pos) (reach : pos ≤ r.bytes.length) {i : Nat}
    (kept : i < pos) (out : i < s.offset ∨ s.offset + 2 ≤ i) :
    (cutBack s pos r).bytes[i]? = r.bytes[i]? := by
  have hs := s.offset_bounds
  show ((patch r.bytes s.offset [0, 0]).take pos)[i]? = _
  rw [List.getElem?_take_of_lt kept]
  exact getElem?_patch (show s.offset + 2 ≤ r.bytes.length by omega) out

theorem counts_cutBack {log : Log} (h : Counts (memory r.bytes) log) (s : Section)
    (header : 12 ≤ pos) (reach : pos ≤ r.bytes.length) :
    Counts (memory (cutBack s pos r).bytes) (log.without s) := by
  have hs := s.offset_bounds
  refine counts_iff.mpr fun t => ?_
  have ht := t.offset_bounds
  rw [Log.part_without]
  split
  · rename_i hsame
    subst hsame
    have hin : t.offset + [0, 0].length ≤ r.bytes.length := show t.offset + 2 ≤ _ by omega
    refine holds_of_agree (holds_patch (s := [0, 0]) hin) fun i _ hi => ?_
    exact List.getElem?_take_of_lt (Nat.lt_of_lt_of_le hi (Nat.le_trans ht.2 header))
  · rename_i hother
    have hapart := Section.offset_apart hother
    refine holds_of_agree (counts_iff.mp h t) fun i hlo hi => ?_
    rw [be16_length] at hi
    exact getElem?_cutBack s header reach (by omega) (by omega)

end cutBack

/-- A buffer that agrees with an earlier message behind the header, and counts its records, is that
message. -/
theorem Idle.message_of_agree {r : Response} {question : Name} {log : Log} (h : Idle r question log)
    {buf : Bytes} (length : buf.length = r.bytes.length)
    (agree : ∀ i, 12 ≤ i → i < r.bytes.length → buf[i]? = r.bytes[i]?)
    (counts : Counts (memory buf) log) : Says buf question log := by
  refine ⟨counts, ?_⟩
  rw [length]
  refine h.body.mono ((stable_mono (fun _ _ hi => hi) fun i hi hout => ?_).trans (stable_within headerHole buf))
  exact agree i (Nat.not_lt.mp (of_decide_eq_false hout)) hi

end TinyDnssec
