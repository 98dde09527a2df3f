import TinyDnssec.Response

/-!
# Compression

Every name that `response_addname` writes is read back by `dns_packet_getname`, and every pointer it
writes leads to a complete name. This holds in any order of the `response_*` calls behind a
`response_query`: between records, inside them, in records that are given up or closed twice, and
behind the cut that `response_tc` makes.

Two things are left to the caller, as in the C code. `response_rfinish` writes to where the last
`response_rstart` left off, so there has to be one in this response; and behind `response_tc` the
table of names is no longer true, so nothing is added there any more.
-/

namespace TinyDnssec

open Octets Loop

/-- How a name stands at a position: its labels as they are, up to the root or to a pointer, which
leads to a complete name from where it goes on. -/
inductive Spelled (m : Memory) : Nat → Name → Nat → Prop
  | root {pos} : m pos = some 0 → Spelled m pos [] (pos + 1)
  | label {pos l d stop} : Holds m pos (UInt8.ofNat l.length :: l) →
      Spelled m (pos + 1 + l.length) d stop → Spelled m pos (l :: d) stop
  | pointer {pos d target} : target < 16384 → Holds m pos (be16 (49152 + target)) →
      (∃ stop, NameAt m target d stop) → Spelled m pos d (pos + 2)

theorem Spelled.mono {m m' : Memory} {pos stop : Nat} {d : Name} (h : Spelled m pos d stop)
    (within : Within m m') : Spelled m' pos d stop := by
  induction h with
  | root h => exact .root (within _ _ h)
  | label there _ ih => exact .label (there.mono within) ih
  | pointer reach there target =>
    obtain ⟨stop, hname⟩ := target
    exact .pointer reach (there.mono within) ⟨stop, hname.mono within⟩

/-- A table entry is a complete name. -/
theorem Known.nameAt {m : Memory} {e : Name × Nat} (h : Known m e) {d : Name}
    (same : lowerName d = lowerName e.1) : ∃ stop, NameAt m e.2 d stop := by
  obtain ⟨hvalid, _, n, stop, cost, hdec, hcost, hlower⟩ := h
  have hshort := hvalid.short
  exact ⟨stop, n, cost, hdec, by omega, hdec.valid hvalid hlower, hlower.trans same.symm⟩

/-- **What `response_addname` writes**, octet by octet. -/
theorem addname_spelled {hole : Nat → Bool} {d : Name} (valid : Valid d) {r r' : Response}
    (behind : ∀ i, r.bytes.length ≤ i → hole i = false)
    (table : ∀ e ∈ r.names, Valid e.1 ∧ (span e.1 ≤ span d → Known (stable hole r.bytes) e))
    (h : addname d r = .ok r') :
    Spelled (stable hole r'.bytes) r.bytes.length d r'.bytes.length := by
  induction d generalizing r with
  | nil =>
    obtain ⟨_, rfl⟩ := addbytes_eq_ok.mp h
    have hroot := (holds_cons.mp (@holds_stable_append hole r.bytes [0] behind)).1
    simp only [List.length_append, List.length_singleton]
    exact .root hroot
  | cons l d ih =>
    rw [addname] at h
    split at h
    · rename_i e hfind
      obtain ⟨_, rfl⟩ := addbytes_eq_ok.mp h
      obtain ⟨hvalid, hknown⟩ := table e (List.mem_of_find?_eq_some hfind)
      have hequal := List.find?_some hfind
      have hsame : lowerName (l :: d) = lowerName e.1 := (dnsDomainEqual_iff valid hvalid).mp hequal
      have hspan : span e.1 = span (l :: d) := by rw [← span_lowerName e.1, ← hsame, span_lowerName]
      have hknown := (hknown hspan.le).mono (stable_append hole r.bytes (be16 (49152 + e.2)))
      simp only [List.length_append, be16_length]
      exact .pointer hknown.2.1 (holds_stable_append behind) (hknown.nameAt hsame)
    · obtain ⟨r₁, hadd, hgo⟩ := bind_eq_ok.mp h
      obtain ⟨_, rfl⟩ := addbytes_eq_ok.mp hadd
      have henter : (enter (l :: d) r).bytes = r.bytes := by unfold enter; split <;> rfl
      have hnames : ∀ e ∈ (enter (l :: d) r).names, e ∈ r.names ∨ e = (l :: d, r.bytes.length) := by
        intro e he
        unfold enter at he
        split at he
        · rcases List.mem_append.mp he with he | he
          · exact .inl he
          · exact .inr (List.mem_singleton.mp he)
        · exact .inl he
      simp only [henter] at hgo
      have hlen : (r.bytes ++ UInt8.ofNat l.length :: l).length = r.bytes.length + 1 + l.length := by
        rw [List.length_append, List.length_cons]
        omega
      have hbehind : ∀ i, (r.bytes ++ UInt8.ofNat l.length :: l).length ≤ i → hole i = false :=
        fun i hi => behind i (by omega)
      have htable : ∀ e ∈ (enter (l :: d) r).names, Valid e.1 ∧ (span e.1 ≤ span d →
          Known (stable hole (r.bytes ++ UInt8.ofNat l.length :: l)) e) := by
        intro e he
        rcases hnames e he with he | rfl
        · obtain ⟨hvalid, hknown⟩ := table e he
          refine ⟨hvalid, fun hle => (hknown ?_).mono (stable_append hole _ _)⟩
          rw [span_cons]
          omega
        · refine ⟨valid, fun hle => ?_⟩
          rw [span_cons] at hle
          omega
      have hthere := @holds_stable_append hole r.bytes (UInt8.ofNat l.length :: l) behind
      have hgrown := (addname_spec valid.tail hbehind htable hgo).grown
      have hrest := ih valid.tail hbehind htable hgo
      simp only [hlen] at hrest
      exact .label (hthere.mono (stable_grown hgrown)) hrest

/-! ## Calls -/

/-- A name that was written: where it begins, and the position behind it. -/
structure Written where
  name : Name
  pos : Nat
  stop : Nat

/-- How far a response is: no record has been begun, some have, or it was cut. -/
inductive Stage where
  | query
  | records
  | cut
deriving DecidableEq

/-- **Any sequence of successful calls** from a `response_query` on, with the names that were written
and are still part of the response. `response_cname` is `response_rstart`, `response_addname` and
`response_rfinish`. -/
inductive Run : Stage → List Written → Response → Prop
  | query {q : Name} {qtype qclass : Bytes} {r₀ r : Response} : Valid q → qtype.length = 2 →
      qclass.length = 2 → responseQuery q qtype qclass r₀ = .ok r →
      Run .query [⟨q, 12, r.bytes.length - 4⟩] r
  | addbytes {stage ws} {buf : Bytes} {r r' : Response} : Run stage ws r → stage ≠ .cut →
      addbytes buf r = .ok r' → Run stage ws r'
  | addname {stage ws} {d : Name} {r r' : Response} : Run stage ws r → stage ≠ .cut → Valid d →
      addname d r = .ok r' → Run stage (⟨d, r.bytes.length, r'.bytes.length⟩ :: ws) r'
  | rstart {stage ws} {hidettl : Bool} {d : Name} {type : Bytes} {ttl : Nat} {r r' : Response} :
      Run stage ws r → stage ≠ .cut → Valid d → type.length = 2 →
      rstart hidettl d type ttl r = .ok r' →
      Run .records (⟨d, r.bytes.length, r'.bytes.length - 10⟩ :: ws) r'
  | rfinish {ws} {s : Section} {r : Response} : Run .records ws r → Run .records ws (rfinish s r)
  | nxdomain {stage ws} {r : Response} : Run stage ws r → Run stage ws (nxdomain r)
  | servfail {stage ws} {r : Response} : Run stage ws r → Run stage ws (servfail r)
  | id {stage ws} {id : Bytes} {r : Response} : Run stage ws r → id.length = 2 →
      Run stage ws (responseId id r)
  | tc {stage ws} {r : Response} : Run stage ws r →
      Run .cut (ws.filter fun w => decide (w.stop ≤ r.tctarget)) (responseTc r)

/-- **Order matters.** Behind `response_tc` a name is closed with a pointer to a name that was cut
off, and is not read back; and a `response_rfinish` without `response_rstart` writes to where the
record of an earlier response ended, which may be inside the question's name. -/
theorem round_trip_misordered :
    (∃ r r', responseQuery [[122]] dnsTA dnsCIn ⟨[], [], 0, 0⟩ >>= addname [[97], [98]] = .ok r ∧
      addname [[98]] (responseTc r) = .ok r' ∧
      dnsPacketGetname r'.bytes (responseTc r).bytes.length = none) ∧
    ∃ r r' n, responseQuery [] dnsTA dnsCIn ⟨[], [], 0, 0⟩ >>= rstart false [] dnsTA 0 = .ok r ∧
      responseQuery [List.replicate 20 97] dnsTA dnsCIn (rfinish .answer r) = .ok r' ∧
      dnsPacketGetname (rfinish .answer r').bytes 12 = some (n, 34) ∧
      lowerName n ≠ lowerName [List.replicate 20 97] := by
  constructor
  · exact ⟨_, _, rfl, rfl, by decide +kernel⟩
  · exact ⟨_, _, [List.replicate 13 97 ++ [0, 10] ++ List.replicate 5 97], rfl, rfl,
      by decide +kernel, by decide⟩

/-! ## What every call preserves -/

/-- A written name is there, in one reading and octet by octet. -/
structure Stands (m : Memory) (w : Written) : Prop where
  reads : NameAt m w.pos w.name w.stop
  spelled : Spelled m w.pos w.name w.stop

theorem Stands.mono {m m' : Memory} {w : Written} (h : Stands m w) (within : Within m m') :
    Stands m' w :=
  ⟨h.reads.mono within, h.spelled.mono within⟩

/-- The invariant. `hole` is what later calls may write over: the header, and the length of the data
of every record begun so far. -/
structure Sound (hole : Nat → Bool) (stage : Stage) (ws : List Written) (r : Response) : Prop where
  limit : r.bytes.length ≤ 65535
  target : 12 ≤ r.tctarget ∧ r.tctarget ≤ r.bytes.length
  header : ∀ i, i < 12 → hole i = true
  behind : stage ≠ .cut → ∀ i, r.bytes.length ≤ i → hole i = false
  field : stage = .records → r.dpos ≤ r.bytes.length ∧ 2 ≤ r.dpos ∧
    ∀ i, r.dpos - 2 ≤ i → i < r.dpos → hole i = true
  table : stage ≠ .cut → ∀ e ∈ r.names, Known (stable hole r.bytes) e
  names : ∀ w ∈ ws, Stands (stable hole r.bytes) w
  front : ∀ w ∈ ws, w.stop ≤ r.tctarget → Stands (stable hole (r.bytes.take r.tctarget)) w

section

variable {hole : Nat → Bool} {stage : Stage} {ws : List Written} {r r' : Response}

/-- Octets written inside the hole. -/
theorem Sound.patch (h : Sound hole stage ws r) {pos : Nat} {s : Bytes}
    (fits : pos + s.length ≤ r.bytes.length)
    (inside : ∀ i, pos ≤ i → i < pos + s.length → hole i = true)
    (bytes : r'.bytes = patch r.bytes pos s) (names : r'.names = r.names) (dpos : r'.dpos = r.dpos)
    (tctarget : r'.tctarget = r.tctarget) : Sound hole stage ws r' := by
  have hlen : r'.bytes.length = r.bytes.length := by rw [bytes, patch_length fits]
  have hagree : ∀ i, hole i = false → r'.bytes[i]? = r.bytes[i]? := by
    intro i hout
    rw [bytes]
    apply getElem?_patch fits
    by_contra hin
    rw [inside i (by omega) (by omega)] at hout
    cases hout
  have hwithin : Within (stable hole r.bytes) (stable hole r'.bytes) :=
    stable_mono (fun _ _ h => h) fun i _ hout => hagree i hout
  have hfront : Within (stable hole (r.bytes.take r.tctarget))
      (stable hole (r'.bytes.take r.tctarget)) := by
    refine stable_mono (fun _ _ h => h) fun i hi hout => ?_
    have hi : i < r.tctarget := by
      rw [List.length_take] at hi
      omega
    rw [List.getElem?_take_of_lt hi, List.getElem?_take_of_lt hi, hagree i hout]
  refine ⟨?_, ?_, h.header, ?_, ?_, ?_, ?_, ?_⟩
  · rw [hlen]
    exact h.limit
  · rw [hlen, tctarget]
    exact h.target
  · rw [hlen]
    exact h.behind
  · rw [hlen, dpos]
    exact h.field
  · rw [names]
    exact fun hopen e he => (h.table hopen e he).mono hwithin
  · exact fun w hw => (h.names w hw).mono hwithin
  · rw [tctarget]
    exact fun w hw hle => (h.front w hw hle).mono hfront

/-- Octets written at the end, with names among them. `hole'` may have holes in what is new. -/
theorem Sound.grow (h : Sound hole stage ws r) {hole' : Nat → Bool} {stage' : Stage}
    {more : List Written} (grown : r.bytes <+: r'.bytes) (limit : r'.bytes.length ≤ 65535)
    (old : ∀ i, i < r.bytes.length → hole' i = hole i)
    (behind : ∀ i, r'.bytes.length ≤ i → hole' i = false)
    (field : stage' = .records → r'.dpos ≤ r'.bytes.length ∧ 2 ≤ r'.dpos ∧
      ∀ i, r'.dpos - 2 ≤ i → i < r'.dpos → hole' i = true)
    (tctarget : r'.tctarget = r.tctarget) (isOpen : stage ≠ .cut)
    (table : ∀ e ∈ r'.names, e ∈ r.names ∨ Known (stable hole' r'.bytes) e)
    (names : ∀ w ∈ more, r.bytes.length < w.stop ∧ Stands (stable hole' r'.bytes) w) :
    Sound hole' stage' (more ++ ws) r' := by
  have hlen := grown.length_le
  obtain ⟨added, hadded⟩ := grown
  have hwithin : Within (stable hole r.bytes) (stable hole' r'.bytes) := by
    refine stable_mono (fun i hi hin => ?_) fun i hi _ => ?_
    · rwa [← old i hi]
    · rw [← hadded]
      exact List.getElem?_append_left hi
  have htarget := h.target
  have hfront : Within (stable hole (r.bytes.take r.tctarget))
      (stable hole' (r'.bytes.take r.tctarget)) := by
    rw [← hadded, List.take_append_of_le_length htarget.2]
    refine stable_mono (fun i hi hin => ?_) fun i _ _ => rfl
    rw [List.length_take] at hi
    rwa [← old i (by omega)]
  refine ⟨limit, ?_, fun i hi => ?_, fun _ => behind, field, fun _ e he => ?_, fun w hw => ?_,
    fun w hw hle => ?_⟩
  · rw [tctarget]
    omega
  · rw [old i (by omega)]
    exact h.header i hi
  · rcases table e he with he | he
    · exact (h.table isOpen e he).mono hwithin
    · exact he
  · rcases List.mem_append.mp hw with hw | hw
    · exact (names w hw).2
    · exact (h.names w hw).mono hwithin
  · rw [tctarget] at hle ⊢
    rcases List.mem_append.mp hw with hw | hw
    · have := (names w hw).1
      omega
    · exact (h.front w hw hle).mono hfront

end

/-- A written name, and what the table says, behind `response_addname`. -/
theorem Sound.addname {hole : Nat → Bool} {stage : Stage} {ws : List Written} {r r' : Response}
    (h : Sound hole stage ws r) (isOpen : stage ≠ .cut) {d : Name} (valid : Valid d)
    (hadd : addname d r = .ok r') :
    Sound hole stage (⟨d, r.bytes.length, r'.bytes.length⟩ :: ws) r' := by
  have hbehind := h.behind isOpen
  have htable := h.table isOpen
  have htrue : ∀ e ∈ r.names, Valid e.1 ∧ (span e.1 ≤ span d → Known (stable hole r.bytes) e) :=
    fun e he => ⟨(htable e he).1, fun _ => htable e he⟩
  have hnamed := addname_spec valid hbehind htrue hadd
  have hspelled := addname_spelled valid hbehind htrue hadd
  have hlen := hnamed.grown.length_le
  have hreads := hnamed.nameAt valid
  have hforward : r.bytes.length < r'.bytes.length := by
    obtain ⟨_, _, hdec, _⟩ := hreads
    exact hdec.forward
  show Sound hole stage ([⟨d, r.bytes.length, r'.bytes.length⟩] ++ ws) r'
  refine h.grow hnamed.grown hnamed.limit (fun _ _ => rfl) (fun i hi => hbehind i (hlen.trans hi)) ?_
    hnamed.tctarget isOpen hnamed.known ?_
  · intro hstage
    obtain ⟨hdpos, htwo, hfield⟩ := h.field hstage
    rw [hnamed.dpos]
    exact ⟨hdpos.trans hlen, htwo, hfield⟩
  · intro w hw
    rw [List.mem_singleton.mp hw]
    exact ⟨hforward, hreads, hspelled⟩

theorem Sound.addbytes {hole : Nat → Bool} {stage : Stage} {ws : List Written} {r r' : Response}
    (h : Sound hole stage ws r) (isOpen : stage ≠ .cut) {buf : Bytes}
    (hadd : addbytes buf r = .ok r') : Sound hole stage ws r' := by
  obtain ⟨hroom, rfl⟩ := addbytes_eq_ok.mp hadd
  have hlimit := h.limit
  have hlen : (r.bytes ++ buf).length = r.bytes.length + buf.length := List.length_append
  show Sound hole stage ([] ++ ws) _
  refine h.grow (List.prefix_append _ _) ?_ (fun _ _ => rfl)
    (fun i hi => h.behind isOpen i (by simp only [hlen] at hi; omega)) ?_ rfl isOpen (fun _ he => .inl he)
    (fun _ hw => absurd hw List.not_mem_nil)
  · simp only [hlen]
    omega
  · intro hstage
    obtain ⟨hdpos, htwo, hfield⟩ := h.field hstage
    refine ⟨?_, htwo, hfield⟩
    simp only [hlen]
    omega

/-- The length of a record's data is a new hole. -/
theorem Sound.rstart {hole : Nat → Bool} {stage : Stage} {ws : List Written} {r r' : Response}
    (h : Sound hole stage ws r) (isOpen : stage ≠ .cut) {hidettl : Bool} {d : Name} (valid : Valid d)
    {type : Bytes} (two : type.length = 2) {ttl : Nat} (hstart : rstart hidettl d type ttl r = .ok r') :
    ∃ hole', Sound hole' .records (⟨d, r.bytes.length, r'.bytes.length - 10⟩ :: ws) r' := by
  simp only [TinyDnssec.rstart, bind_eq_ok] at hstart
  obtain ⟨r₁, hname, r₂, htype, r₃, hcls, r₄, httl, r₅, hdlen, hstart⟩ := hstart
  cases hstart
  have h₁ := h.addname isOpen valid hname
  have h₂ := h₁.addbytes isOpen htype
  have h₃ := h₂.addbytes isOpen hcls
  have h₄ := h₃.addbytes isOpen httl
  have hlen₄ : r₄.bytes.length = r₁.bytes.length + 8 := by
    obtain ⟨_, rfl⟩ := addbytes_eq_ok.mp htype
    obtain ⟨_, rfl⟩ := addbytes_eq_ok.mp hcls
    obtain ⟨_, rfl⟩ := addbytes_eq_ok.mp httl
    simp only [List.length_append, two, be32_length, show dnsCIn.length = 2 from rfl]
  obtain ⟨hroom, rfl⟩ := addbytes_eq_ok.mp hdlen
  have hlen : (r₄.bytes ++ [0, 0]).length = r₄.bytes.length + 2 := List.length_append
  have hlimit := h₄.limit
  have hstop : r₁.bytes.length = (r₄.bytes ++ [0, 0]).length - 10 := by omega
  have hdlenTwo : ([0, 0] : Bytes).length = 2 := rfl
  rw [hdlenTwo] at hroom
  refine ⟨fun i => hole i || (decide (r₄.bytes.length ≤ i) && decide (i < r₄.bytes.length + 2)), ?_⟩
  simp only [← hstop]
  show Sound _ .records ([] ++ _) _
  refine h₄.grow (List.prefix_append _ _) ?_ ?_ ?_ ?_ rfl isOpen (fun _ he => .inl he)
    (fun _ hw => absurd hw List.not_mem_nil)
  · simp only [hlen]
    omega
  · intro i hi
    rw [decide_eq_false (Nat.not_le.mpr hi), Bool.false_and, Bool.or_false]
  · intro i hi
    simp only [hlen] at hi
    rw [h₄.behind isOpen i (by omega), decide_eq_false (show ¬i < r₄.bytes.length + 2 by omega),
      Bool.and_false, Bool.or_false]
  · intro _
    refine ⟨Nat.le_refl _, ?_, fun i lo hi => ?_⟩
    · simp only [hlen]
      omega
    · simp only [hlen] at lo hi
      rw [decide_eq_true (show r₄.bytes.length ≤ i by omega), decide_eq_true hi, Bool.and_self,
        Bool.or_true]

theorem Sound.rfinish {hole : Nat → Bool} {ws : List Written} {r : Response}
    (h : Sound hole .records ws r) (s : Section) : Sound hole .records ws (rfinish s r) := by
  obtain ⟨hdpos, htwo, hfield⟩ := h.field rfl
  obtain ⟨hlow, hhigh⟩ := s.offset_bounds
  have htarget := h.target
  have hfits : r.dpos - 2 + (be16 (r.bytes.length - r.dpos)).length ≤ r.bytes.length := by
    rw [be16_length]
    omega
  have hlen := patch_length hfits
  have hpatched : Sound hole .records ws
      { r with bytes := Octets.patch r.bytes (r.dpos - 2) (be16 (r.bytes.length - r.dpos)) } := by
    refine h.patch hfits (fun i lo hi => hfield i lo ?_) rfl rfl rfl rfl
    rw [be16_length] at hi
    omega
  refine hpatched.patch ?_ (fun i lo hi => hpatched.header i ?_)
    (show (TinyDnssec.rfinish s r).bytes = _ from rfl) rfl rfl rfl
  · show s.offset + 2 ≤ (Octets.patch _ _ _).length
    omega
  · have hi : i < s.offset + 2 := hi
    omega

theorem Sound.ofQuery {q : Name} (valid : Valid q) {qtype qclass : Bytes} (two : qtype.length = 2)
    (clsTwo : qclass.length = 2) {r₀ r : Response} (h : responseQuery q qtype qclass r₀ = .ok r) :
    Sound headerHole .query [⟨q, 12, r.bytes.length - 4⟩] r := by
  simp only [responseQuery, bind_eq_ok] at h
  obtain ⟨r₁, hheader, r₂, hname, r₃, htype, r₄, hcls, h⟩ := h
  cases h
  obtain ⟨_, rfl⟩ := addbytes_eq_ok.mp hheader
  obtain ⟨_, rfl⟩ := addbytes_eq_ok.mp htype
  obtain ⟨hroom, rfl⟩ := addbytes_eq_ok.mp hcls
  have hheader : ([] ++ [0, 0, 129, 128, 0, 1, 0, 0, 0, 0, 0, 0] : Bytes).length = 12 := rfl
  generalize ([] ++ [0, 0, 129, 128, 0, 1, 0, 0, 0, 0, 0, 0] : Bytes) = start at *
  have hbehind : ∀ i, start.length ≤ i → headerHole i = false :=
    fun i hi => decide_eq_false (Nat.not_lt.mpr (hheader.ge.trans hi))
  have hnamed := addname_spec valid hbehind (fun _ he => absurd he List.not_mem_nil) hname
  have hspelled := addname_spelled valid hbehind (fun _ he => absurd he List.not_mem_nil) hname
  have hreads := hnamed.nameAt valid
  have hgrown : 12 ≤ r₂.bytes.length := hheader.symm.trans_le hnamed.grown.length_le
  have hlimit := hnamed.limit
  have hlen : (r₂.bytes ++ qtype ++ qclass).length = r₂.bytes.length + 4 := by
    simp only [List.length_append, two, clsTwo]
  have hwithin : Within (stable headerHole r₂.bytes)
      (stable headerHole (r₂.bytes ++ qtype ++ qclass)) :=
    (stable_append _ _ _).trans (stable_append _ _ _)
  have hstands : Stands (stable headerHole (r₂.bytes ++ qtype ++ qclass))
      ⟨q, 12, (r₂.bytes ++ qtype ++ qclass).length - 4⟩ := by
    rw [hlen, Nat.add_sub_cancel, ← hheader]
    exact ⟨hreads.mono hwithin, hspelled.mono hwithin⟩
  refine ⟨?_, ⟨?_, Nat.le_refl _⟩, fun i hi => decide_eq_true hi, fun _ i hi => ?_,
    Stage.noConfusion, fun _ e he => ?_, fun w hw => ?_, fun w hw _ => ?_⟩
  · simp only [List.length_append, two] at hroom
    simp only [hlen]
    omega
  · simp only [hlen]
    omega
  · simp only [hlen] at hi
    exact decide_eq_false (by omega)
  · rcases hnamed.known e he with he | he
    · exact absurd he List.not_mem_nil
    · exact he.mono hwithin
  · rw [List.mem_singleton.mp hw]
    exact hstands
  · rw [List.mem_singleton.mp hw]
    show Stands (stable headerHole ((r₂.bytes ++ qtype ++ qclass).take _)) _
    rw [List.take_length]
    exact hstands

/-- What is cut off is no longer there; what is left stands as it did. -/
theorem Sound.tc {hole : Nat → Bool} {stage : Stage} {ws : List Written} {r : Response}
    (h : Sound hole stage ws r) :
    Sound hole .cut (ws.filter fun w => decide (w.stop ≤ r.tctarget)) (responseTc r) := by
  obtain ⟨hlow, hhigh⟩ := h.target
  have hfits : 2 + ([r.bytes.getD 2 0 ||| 2] : Bytes).length ≤ r.bytes.length :=
    Nat.le_trans (show 3 ≤ 12 by decide) (hlow.trans hhigh)
  have hpatched : Sound hole stage ws
      { r with bytes := Octets.patch r.bytes 2 [r.bytes.getD 2 0 ||| 2] } := by
    refine h.patch hfits (fun i _ hi => h.header i ?_) rfl rfl rfl rfl
    have hi : i < 3 := hi
    omega
  have hlen : ((Octets.patch r.bytes 2 [r.bytes.getD 2 0 ||| 2]).take r.tctarget).length =
      r.tctarget := by
    rw [List.length_take, patch_length hfits]
    omega
  have hleft : ∀ w ∈ ws.filter (fun w => decide (w.stop ≤ r.tctarget)),
      Stands (stable hole (responseTc r).bytes) w := by
    intro w hw
    obtain ⟨hmem, hstop⟩ := List.mem_filter.mp hw
    exact hpatched.front w hmem (of_decide_eq_true hstop)
  refine ⟨?_, ⟨hlow, hlen.ge⟩, h.header, fun hne => absurd rfl hne, Stage.noConfusion,
    fun hne => absurd rfl hne, hleft, fun w hw _ => ?_⟩
  · show (List.take _ _).length ≤ 65535
    rw [hlen]
    exact hhigh.trans h.limit
  · have hwhole : (responseTc r).bytes.take (responseTc r).tctarget = (responseTc r).bytes :=
      List.take_of_length_le hlen.le
    rw [hwhole]
    exact hleft w hw

/-- A field of the header. -/
theorem Sound.flags {hole : Nat → Bool} {stage : Stage} {ws : List Written} {r : Response}
    (h : Sound hole stage ws r) {pos : Nat} {s : Bytes} (inside : pos + s.length ≤ 12) :
    Sound hole stage ws { r with bytes := Octets.patch r.bytes pos s } := by
  obtain ⟨hlow, hhigh⟩ := h.target
  exact h.patch (inside.trans (hlow.trans hhigh)) (fun i _ hi => h.header i (by omega)) rfl rfl rfl rfl

/-- **Whatever was called**, what was written stands. -/
theorem Run.sound {stage : Stage} {ws : List Written} {r : Response} (h : Run stage ws r) :
    ∃ hole, Sound hole stage ws r := by
  induction h with
  | query valid two clsTwo h => exact ⟨_, .ofQuery valid two clsTwo h⟩
  | addbytes _ isOpen hadd ih =>
    obtain ⟨hole, hsound⟩ := ih
    exact ⟨hole, hsound.addbytes isOpen hadd⟩
  | addname _ isOpen valid hadd ih =>
    obtain ⟨hole, hsound⟩ := ih
    exact ⟨hole, hsound.addname isOpen valid hadd⟩
  | rstart _ isOpen valid two hstart ih =>
    obtain ⟨hole, hsound⟩ := ih
    exact hsound.rstart isOpen valid two hstart
  | rfinish _ ih =>
    obtain ⟨hole, hsound⟩ := ih
    exact ⟨hole, hsound.rfinish _⟩
  | nxdomain _ ih =>
    obtain ⟨hole, hsound⟩ := ih
    exact ⟨hole, hsound.flags (Nat.le_of_ble_eq_true rfl)⟩
  | servfail _ ih =>
    obtain ⟨hole, hsound⟩ := ih
    exact ⟨hole, hsound.flags (Nat.le_of_ble_eq_true rfl)⟩
  | id _ two ih =>
    obtain ⟨hole, hsound⟩ := ih
    exact ⟨hole, hsound.flags (by rw [two]; decide)⟩
  | tc _ ih =>
    obtain ⟨hole, hsound⟩ := ih
    exact ⟨hole, hsound.tc⟩

/-- `response_cname` is one of these sequences. -/
theorem Run.cname {stage : Stage} {ws : List Written} {r r' : Response} (h : Run stage ws r)
    (isOpen : stage ≠ .cut) {hidettl : Bool} {c d : Name} (cValid : Valid c) (dValid : Valid d)
    {ttl : Nat} (hcname : responseCname hidettl c d ttl r = .ok r') :
    ∃ more, Run .records (more ++ ws) r' ∧ more.map Written.name = [d, c] := by
  obtain ⟨r₁, hstart, hcname⟩ := bind_eq_ok.mp hcname
  obtain ⟨r₂, hadd, hcname⟩ := bind_eq_ok.mp hcname
  cases hcname
  have hrun := ((h.rstart isOpen cValid rfl hstart).addname Stage.noConfusion dValid hadd).rfinish
    (s := .answer)
  exact ⟨[_, _], hrun, rfl⟩

/-- **Compression round trip.** Behind any sequence of calls, every written name that is still part of
the response is read back, up to letter case and with the position behind it; and octet by octet it
is its labels up to the root or to a pointer, which leads, below 16384, to a complete name. -/
theorem Run.round_trip {stage : Stage} {ws : List Written} {r : Response} (h : Run stage ws r)
    (w : Written) (hw : w ∈ ws) :
    (∃ n, dnsPacketGetname r.bytes w.pos = some (n, w.stop) ∧ lowerName n = lowerName w.name) ∧
      Spelled (memory r.bytes) w.pos w.name w.stop := by
  obtain ⟨hole, hsound⟩ := h.sound
  obtain ⟨hreads, hspelled⟩ := (hsound.names w hw).mono (stable_within hole r.bytes)
  obtain ⟨n, hread, _, hlower⟩ := hreads.getname
  exact ⟨⟨n, hread, hlower⟩, hspelled⟩

theorem run_round_trip_shared :
    ∃ r r', responseQuery [[97], [98]] dnsTA dnsCIn ⟨[], [], 0, 0⟩ = .ok r ∧
      rstart false [[99], [98]] dnsTA 0 r = .ok r' ∧
      (∃ n, dnsPacketGetname r'.bytes 21 = some (n, 25) ∧ lowerName n = [[99], [98]]) ∧
      Spelled (memory r'.bytes) 21 [[99], [98]] 25 := by
  obtain ⟨r, hr⟩ : ∃ r, responseQuery [[97], [98]] dnsTA dnsCIn ⟨[], [], 0, 0⟩ = .ok r :=
    exists_of_isOk rfl
  obtain ⟨r', hr'⟩ : ∃ r', rstart false [[99], [98]] dnsTA 0 r = .ok r' := by
    cases hr
    exact exists_of_isOk rfl
  have hrun := (Run.query (by decide) rfl rfl hr).rstart Stage.noConfusion (by decide) rfl hr'
  have hend : r.bytes.length = 21 ∧ r'.bytes.length - 10 = 25 := by
    cases hr
    cases hr'
    exact ⟨rfl, rfl⟩
  rw [hend.1, hend.2] at hrun
  exact ⟨r, r', hr, hr', hrun.round_trip _ List.mem_cons_self⟩

end TinyDnssec
