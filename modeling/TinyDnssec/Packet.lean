import TinyDnssec.Base.Loop
import TinyDnssec.Base.Memory
import TinyDnssec.Name

/-!
# Reading packets

`dns_packet.c`: copying fixed fields, walking past a name, and decoding a name through compression
pointers. All three read a packet at a position and answer the position behind what they read, or
fail; the C code answers 0 for failure, which is no position behind anything.

`dns_packet_getname` may jump backwards and forwards, and what bounds it is its own step counter:
it gives up at the thousandth octet it looks at. That counter is the recursion's fuel here.
`Decodes` is the meaning of an encoded name without any counter, with the number of octets a
decoder looks at as its cost; `dnsPacketGetname_of_decodes` is the rule the rest of the development
uses, and it asks for a cost below the limit.

No reader here trusts a packet, and none says whether what it reads is true.
-/

namespace TinyDnssec

open Octets

/-- `outlen` octets from `pos`, and the position behind them. -/
def dnsPacketCopy (buf : Bytes) (pos : Nat) : Nat → Option (Bytes × Nat)
  | 0 => some ([], pos)
  | outlen + 1 =>
    match buf[pos]? with
    | none => none
    | some ch => (dnsPacketCopy buf (pos + 1) outlen).map fun (out, pos) => (ch :: out, pos)

/-- The loop of `dns_packet_skipname`. A label moves the position forward, so as many rounds as
there are octets are enough. -/
def skipnameGo (buf : Bytes) : Nat → Nat → Option Nat
  | 0, _ => none
  | rounds + 1, pos =>
    match buf[pos]? with
    | none => none
    | some ch =>
      if ch ≥ 192 then some (pos + 2)
      else if ch ≥ 64 then none
      else if ch = 0 then some (pos + 1)
      else skipnameGo buf rounds (pos + 1 + ch.toNat)

def dnsPacketSkipname (buf : Bytes) (pos : Nat) : Option Nat :=
  skipnameGo buf (buf.length + 1) pos

/-- The loop of `dns_packet_getname`. `state` octets of the current label are still to come;
`firstcompress` is the position behind the first pointer followed. -/
def getnameGo (buf : Bytes) :
    Nat → Nat → Nat → Label → Name → Option Nat → Option (Name × Nat)
  | 0, _, _, _, _, _ => none
  | loop + 1, pos, state, label, name, firstcompress =>
    match buf[pos]? with
    | none => none
    | some ch =>
      match state with
      | state + 1 =>
        if span name + (label.length + 1) + 1 > 255 then none
        else if state = 0 then
          getnameGo buf loop (pos + 1) 0 [] (name ++ [label ++ [ch]]) firstcompress
        else getnameGo buf loop (pos + 1) state (label ++ [ch]) name firstcompress
      | 0 =>
        if ch ≥ 192 then
          match buf[pos + 1]? with
          | none => none
          | some lo =>
            getnameGo buf loop ((ch.toNat - 192) * 256 + lo.toNat) 0 [] name
              (firstcompress.or (some (pos + 2)))
        else if ch ≥ 64 then none
        else if span name + 1 > 255 then none
        else if ch = 0 then some (name, firstcompress.getD (pos + 1))
        else getnameGo buf loop (pos + 1) ch.toNat [] name firstcompress

def dnsPacketGetname (buf : Bytes) (pos : Nat) : Option (Name × Nat) :=
  getnameGo buf 999 pos 0 [] [] none

/-- The variables of `dns_packet_getname`. -/
structure Getname where
  loop : Nat
  pos : Nat
  state : Nat
  label : Label
  name : Name
  firstcompress : Option Nat

/-- One round of its loop, counted as the source counts: the pointers followed in the inner loop are
rounds of their own. -/
def Getname.round (buf : Bytes) (g : Getname) : Except (Option (Name × Nat)) Getname :=
  match buf[g.pos]? with
  | none => .error none
  | some ch =>
    if g.loop + 1 ≥ 1000 then .error none
    else
      match g.state with
      | state + 1 =>
        if span g.name + (g.label.length + 1) + 1 > 255 then .error none
        else if state = 0 then
          .ok ⟨g.loop + 1, g.pos + 1, 0, [], g.name ++ [g.label ++ [ch]], g.firstcompress⟩
        else .ok ⟨g.loop + 1, g.pos + 1, state, g.label ++ [ch], g.name, g.firstcompress⟩
      | 0 =>
        if ch ≥ 192 then
          match buf[g.pos + 1]? with
          | none => .error none
          | some lo =>
            .ok ⟨g.loop + 1, (ch.toNat - 192) * 256 + lo.toNat, 0, [], g.name,
              g.firstcompress.or (some (g.pos + 2))⟩
        else if ch ≥ 64 then .error none
        else if span g.name + 1 > 255 then .error none
        else if ch = 0 then .error (some (g.name, g.firstcompress.getD (g.pos + 1)))
        else .ok ⟨g.loop + 1, g.pos + 1, ch.toNat, [], g.name, g.firstcompress⟩

def Getname.start (pos : Nat) : Getname := ⟨0, pos, 0, [], [], none⟩

/-- The ten octets between the owner and the data of a record. -/
structure RrHeader where
  type : Bytes
  cls : Bytes
  ttl : Nat
  datalen : Nat
deriving DecidableEq, Repr

def rrHeader (x : Bytes) : RrHeader where
  type := x.take 2
  cls := (x.drop 2).take 2
  ttl := unbe ((x.drop 4).take 4)
  datalen := unbe ((x.drop 8).take 2)

/-- Two fields that stand behind one another stand each at its place. -/
theorem prefix_of_append {buf s t : Bytes} {pos : Nat} (there : s ++ t <+: buf.drop pos) :
    s <+: buf.drop pos ∧ t <+: buf.drop (pos + s.length) := by
  obtain ⟨r, hr⟩ := there
  refine ⟨⟨t ++ r, by rw [← hr, List.append_assoc]⟩, ⟨r, ?_⟩⟩
  rw [← List.drop_drop, ← hr, List.append_assoc, List.drop_left]

/-- What stands at a position is there also when the packet is cut behind it. -/
theorem prefix_take {buf s : Bytes} {pos : Nat} (there : s <+: buf.drop pos) :
    s <+: (buf.take (pos + s.length)).drop pos := by
  rw [List.drop_take, Nat.add_sub_cancel_left]
  exact (List.prefix_take_iff.mpr ⟨there, Nat.le_refl _⟩)

theorem rrHeader_append {type cls : Bytes} (two : type.length = 2) (clsTwo : cls.length = 2)
    {ttl datalen : Nat} (httl : ttl < 4294967296) (hlen : datalen < 65536) :
    rrHeader (type ++ cls ++ be32 ttl ++ be16 datalen) = ⟨type, cls, ttl, datalen⟩ := by
  obtain ⟨a, b, rfl⟩ := List.length_eq_two.mp two
  obtain ⟨c, d, rfl⟩ := List.length_eq_two.mp clsTwo
  have hbe : unbe (be32 ttl) = ttl := unbe_be32 httl
  have hbe' : unbe (be16 datalen) = datalen := unbe_be16 hlen
  simp only [be32, be16] at hbe hbe'
  simp only [rrHeader, be32, be16, List.cons_append, List.nil_append, List.take_succ_cons,
    List.take_zero, List.drop_succ_cons, List.drop_zero, List.take_nil, hbe, hbe']

/-! ## Fixed fields -/

theorem dnsPacketCopy_eq_some {buf out : Bytes} {pos outlen stop : Nat} :
    dnsPacketCopy buf pos outlen = some (out, stop) ↔
      stop = pos + outlen ∧ out.length = outlen ∧ out <+: buf.drop pos := by
  induction outlen generalizing pos out with
  | zero =>
    rw [dnsPacketCopy, Option.some_inj, Prod.mk.injEq]
    constructor
    · rintro ⟨rfl, rfl⟩
      exact ⟨rfl, rfl, List.nil_prefix⟩
    · rintro ⟨rfl, hlen, _⟩
      exact ⟨(List.length_eq_zero_iff.mp hlen).symm, rfl⟩
  | succ n ih =>
    rw [dnsPacketCopy]
    cases hget : buf[pos]? with
    | none =>
      have hover : buf.length ≤ pos := List.getElem?_eq_none_iff.mp hget
      rw [List.drop_of_length_le hover]
      constructor
      · intro h; cases h
      · rintro ⟨_, hlen, hpre⟩
        rw [List.prefix_nil.mp hpre] at hlen
        cases hlen
    | some ch =>
      obtain ⟨hlt, hch⟩ := List.getElem?_eq_some_iff.mp hget
      rw [List.drop_eq_getElem_cons hlt, hch]
      constructor
      · intro h
        obtain ⟨⟨rest, stop'⟩, hrest, heq⟩ := Option.map_eq_some_iff.mp h
        cases heq
        obtain ⟨rfl, hlen, hpre⟩ := ih.mp hrest
        exact ⟨by omega, by rw [List.length_cons, hlen], List.cons_prefix_cons.mpr ⟨rfl, hpre⟩⟩
      · rintro ⟨rfl, hlen, hpre⟩
        cases out with
        | nil => cases hlen
        | cons b out =>
          obtain ⟨rfl, htail⟩ := List.cons_prefix_cons.mp hpre
          have hstop : pos + (n + 1) = pos + 1 + n := by omega
          have hrest := ih.mpr ⟨hstop, Nat.succ.inj hlen, htail⟩
          exact Option.map_eq_some_iff.mpr ⟨(out, pos + (n + 1)), hrest, rfl⟩

/-- A field that stands at a position is what a copy of its length reads there. -/
theorem dnsPacketCopy_of_field {buf out : Bytes} {pos : Nat} (there : out <+: buf.drop pos) :
    dnsPacketCopy buf pos out.length = some (out, pos + out.length) :=
  dnsPacketCopy_eq_some.mpr ⟨rfl, rfl, there⟩

/-- A copy fails only where the packet ends inside the field. -/
theorem length_lt_of_dnsPacketCopy {buf : Bytes} {pos outlen : Nat}
    (h : dnsPacketCopy buf pos outlen = none) : buf.length < pos + outlen := by
  by_contra hfits
  have hlen : ((buf.drop pos).take outlen).length = outlen := by
    rw [List.length_take, List.length_drop]
    omega
  have hcopy := dnsPacketCopy_of_field (List.take_prefix outlen (buf.drop pos))
  rw [hlen, h] at hcopy
  cases hcopy

/-- Nothing is read behind the end. -/
theorem dnsPacketGetname_behind {buf : Bytes} {pos : Nat} (h : buf.length ≤ pos) :
    dnsPacketGetname buf pos = none := by
  rw [dnsPacketGetname, getnameGo, List.getElem?_eq_none h]

/-! ## Encoded names -/

/-- At `pos` an encoding of a name begins, `stop` is the position behind it there, and a decoder
looks at `cost` octets; the second octet of a pointer is not counted. -/
inductive Decodes (m : Memory) : Nat → Name → Nat → Nat → Prop
  | root {pos} : m pos = some 0 → Decodes m pos [] (pos + 1) 1
  | label {pos l n stop cost} : ValidLabel l → Holds m pos (UInt8.ofNat l.length :: l) →
      Decodes m (pos + 1 + l.length) n stop cost →
      Decodes m pos (l :: n) stop (l.length + 1 + cost)
  | pointer {pos} {hi lo : UInt8} {n stop stop' cost} : hi ≥ 192 →
      m pos = some hi → m (pos + 1) = some lo →
      Decodes m ((hi.toNat - 192) * 256 + lo.toNat) n stop' cost → stop = pos + 2 →
      Decodes m pos n stop (cost + 1)

/-- What decodes from some octets decodes from more. -/
theorem Decodes.mono {m m' : Memory} {pos stop cost : Nat} {n : Name}
    (h : Decodes m pos n stop cost) (within : Within m m') : Decodes m' pos n stop cost := by
  induction h with
  | root h => exact .root (within _ _ h)
  | label valid there _ ih => exact .label valid (there.mono within) ih
  | pointer high hhi hlo _ hstop ih =>
    exact .pointer high (within _ _ hhi) (within _ _ hlo) ih hstop

/-- The rounds that read the octets of one label, from the first still to come. -/
theorem getnameGo_label {buf : Bytes} {s : Bytes} (nonempty : s ≠ []) {pos : Nat}
    (there : Holds (memory buf) pos s) {label : Label} {name : Name} {loop : Nat} {first : Option Nat}
    (room : span name + label.length + s.length + 1 ≤ 255) :
    getnameGo buf (loop + s.length) pos s.length label name first =
      getnameGo buf loop (pos + s.length) 0 [] (name ++ [label ++ s]) first := by
  induction s generalizing pos label with
  | nil => exact absurd rfl nonempty
  | cons b s ih =>
    obtain ⟨hb, hrest⟩ := holds_cons.mp there
    rw [memory] at hb
    rw [List.length_cons] at room
    rw [List.length_cons, ← Nat.add_assoc, getnameGo, hb]
    simp only []
    rw [if_neg (by omega)]
    cases s with
    | nil => rw [List.length_nil, if_pos rfl, Nat.add_zero]
    | cons c s =>
      have hroom : span name + (label ++ [b]).length + (c :: s).length + 1 ≤ 255 := by
        rw [List.length_append, List.length_singleton]
        omega
      rw [if_neg (List.length_pos_iff.mpr (List.cons_ne_nil c s)).ne',
        ih (List.cons_ne_nil _ _) hrest hroom, List.append_assoc, List.singleton_append,
        Nat.add_assoc, Nat.add_comm 1]

theorem getnameGo_of_decodes {buf : Bytes} {pos stop cost : Nat} {n : Name}
    (h : Decodes (memory buf) pos n stop cost) {loop : Nat} {name : Name} {first : Option Nat}
    (enough : cost ≤ loop) (room : span name + span n + 1 ≤ 255) :
    getnameGo buf loop pos 0 [] name first = some (name ++ n, first.getD stop) := by
  induction h generalizing loop name first with
  | root h =>
    obtain ⟨loop, rfl⟩ := Nat.exists_eq_add_of_le' enough
    rw [memory] at h
    rw [getnameGo, h]
    simp only []
    rw [if_neg (by decide), if_neg (by decide), if_neg (by simpa using room), List.append_nil]
    rfl
  | @label pos l n stop cost valid there _ ih =>
    obtain ⟨loop, rfl⟩ := Nat.exists_eq_add_of_le' enough
    have hlen := lengthOctet_toNat valid.short
    have hpos := valid.length_pos
    have hshort := valid.short
    obtain ⟨hfirst, hl⟩ := holds_cons.mp there
    rw [memory] at hfirst
    rw [span_cons] at room
    have hlow : UInt8.ofNat l.length < 64 := by
      rw [UInt8.lt_iff_toNat_lt, hlen]
      exact Nat.lt_succ_of_le hshort
    have hne : UInt8.ofNat l.length ≠ 0 := fun hz => by
      rw [hz] at hlen
      exact absurd hlen.symm hpos.ne'
    have hlabel : span name + ([] : Label).length + l.length + 1 ≤ 255 := by
      rw [List.length_nil]
      omega
    have hrest : span (name ++ [l]) + span n + 1 ≤ 255 := by
      simp only [span_append, span_cons, span_nil]
      omega
    have hsplit : loop + (l.length + 1 + cost) = loop + cost + l.length + 1 := by omega
    rw [hsplit, getnameGo, hfirst]
    simp only []
    rw [if_neg (not_le.mpr (hlow.trans (by decide))), if_neg (not_le.mpr hlow), if_neg (by omega),
      if_neg hne, hlen, getnameGo_label (List.ne_nil_of_length_pos hpos) hl hlabel,
      List.nil_append, ih (Nat.le_add_left _ _) hrest, List.append_assoc, List.singleton_append]
  | @pointer pos hi lo n stop stop' cost high hhi hlo _ hstop ih =>
    obtain ⟨loop, rfl⟩ := Nat.exists_eq_add_of_le' enough
    rw [memory] at hhi hlo
    subst hstop
    rw [← Nat.add_assoc, getnameGo, hhi]
    simp only []
    rw [if_pos high, hlo]
    simp only []
    rw [ih (Nat.le_add_left _ _) room]
    cases first <;> rfl

/-- **A decodable name within the limits is what `dns_packet_getname` answers.** -/
theorem dnsPacketGetname_of_decodes {buf : Bytes} {pos stop cost : Nat} {n : Name}
    (h : Decodes (memory buf) pos n stop cost) (enough : cost < 1000) (short : span n + 1 ≤ 255) :
    dnsPacketGetname buf pos = some (n, stop) := by
  have hgo := @getnameGo_of_decodes buf pos stop cost n h 999 [] none (by omega) (by simpa using short)
  rwa [List.nil_append] at hgo

theorem skipnameGo_of_decodes {buf : Bytes} {pos stop cost : Nat} {n : Name}
    (h : Decodes (memory buf) pos n stop cost) {rounds : Nat} (enough : buf.length < pos + rounds) :
    skipnameGo buf rounds pos = some stop := by
  induction h generalizing rounds with
  | @root pos h =>
    obtain ⟨hlt, _⟩ := List.getElem?_eq_some_iff.mp h
    obtain ⟨rounds, rfl⟩ := Nat.exists_eq_add_of_le' (show 1 ≤ rounds by omega)
    unfold memory at h
    rw [skipnameGo, h]
    rfl
  | @label pos l n stop cost valid there _ ih =>
    have hlen := lengthOctet_toNat valid.short
    have hpos := valid.length_pos
    have hshort := valid.short
    obtain ⟨hfirst, _⟩ := holds_cons.mp there
    obtain ⟨hlt, _⟩ := List.getElem?_eq_some_iff.mp hfirst
    obtain ⟨rounds, rfl⟩ := Nat.exists_eq_add_of_le' (show 1 ≤ rounds by omega)
    unfold memory at hfirst
    have hlow : UInt8.ofNat l.length < 64 := by
      rw [UInt8.lt_iff_toNat_lt, hlen]
      exact Nat.lt_succ_of_le hshort
    have hne : UInt8.ofNat l.length ≠ 0 := by
      intro hz
      rw [hz] at hlen
      exact absurd hlen.symm hpos.ne'
    rw [skipnameGo, hfirst]
    simp only []
    rw [if_neg (not_le.mpr (hlow.trans (by decide))), if_neg (not_le.mpr hlow), if_neg hne, hlen]
    apply ih
    omega
  | @pointer pos hi lo n stop stop' cost high hhi _ _ hstop _ =>
    obtain ⟨hlt, _⟩ := List.getElem?_eq_some_iff.mp hhi
    obtain ⟨rounds, rfl⟩ := Nat.exists_eq_add_of_le' (show 1 ≤ rounds by omega)
    unfold memory at hhi
    rw [skipnameGo, hhi]
    simp only []
    rw [if_pos high, hstop]

/-- Walking past a name ends where decoding it does. -/
theorem dnsPacketSkipname_of_decodes {buf : Bytes} {pos stop cost : Nat} {n : Name}
    (h : Decodes (memory buf) pos n stop cost) : dnsPacketSkipname buf pos = some stop :=
  skipnameGo_of_decodes h (by omega)

/-- A name written out in full decodes to itself. -/
theorem decodes_wire {m : Memory} {pos : Nat} {n : Name} (labels : ∀ l ∈ n, ValidLabel l)
    (there : Holds m pos (wire n)) : Decodes m pos n (pos + (span n + 1)) (span n + 1) := by
  induction n generalizing pos with
  | nil => exact .root (holds_cons.mp there).1
  | cons l n ih =>
    rw [wire, ← List.cons_append, holds_append] at there
    have htail := there.2
    rw [List.length_cons, Nat.add_comm l.length, ← Nat.add_assoc] at htail
    have h := Decodes.label (labels l List.mem_cons_self) there.1
      (ih (fun k hk => labels k (List.mem_cons_of_mem _ hk)) htail)
    rw [span_cons, Nat.add_assoc _ (span n)]
    rwa [Nat.add_assoc pos, Nat.add_comm 1, Nat.add_assoc] at h

/-- **An uncompressed name reads back**, and the position behind it is behind its octets. -/
theorem dnsPacketGetname_wire {buf : Bytes} {pos : Nat} {n : Name} (valid : Valid n)
    (there : wire n <+: buf.drop pos) :
    dnsPacketGetname buf pos = some (n, pos + (span n + 1)) :=
  dnsPacketGetname_of_decodes (decodes_wire valid.labels (holds_memory.mpr there))
    (Nat.lt_of_le_of_lt valid.short (by decide)) valid.short

/-! ## What decoding promises -/

theorem getnameGo_valid {buf : Bytes} {loop pos state stop : Nat} {label : Label}
    {name out : Name} {first : Option Nat}
    (labels : ∀ l ∈ name, ValidLabel l) (short : state + label.length ≤ 63)
    (h : getnameGo buf loop pos state label name first = some (out, stop)) : Valid out := by
  induction loop generalizing pos state label name first with
  | zero => rw [getnameGo] at h; cases h
  | succ loop ih =>
    rw [getnameGo] at h
    split at h
    · cases h
    · rename_i ch _
      cases state with
      | succ state =>
        simp only [] at h
        split at h
        · cases h
        · split at h
          · refine ih (fun l hl => ?_) (Nat.zero_le _) h
            rcases List.mem_append.mp hl with hl | hl
            · exact labels l hl
            · rw [List.mem_singleton.mp hl]
              refine ⟨List.append_ne_nil_of_right_ne_nil _ (List.cons_ne_nil _ _), ?_⟩
              rw [List.length_append, List.length_singleton]
              omega
          · refine ih labels ?_ h
            rw [List.length_append, List.length_singleton]
            omega
      | zero =>
        simp only [] at h
        split at h
        · split at h
          · cases h
          · exact ih labels (Nat.zero_le _) h
        · rename_i hlow
          split at h
          · cases h
          · rename_i hlabel
            split at h
            · cases h
            · rename_i hfits
              split at h
              · cases h
                exact ⟨labels, by omega⟩
              · refine ih labels ?_ h
                have hlt := UInt8.lt_iff_toNat_lt.mp (not_le.mp hlabel)
                rw [List.length_nil]
                have : (64 : UInt8).toNat = 64 := rfl
                omega

/-- **Every name `dns_packet_getname` answers is valid**, whatever the packet. -/
theorem dnsPacketGetname_valid {buf : Bytes} {pos stop : Nat} {n : Name}
    (h : dnsPacketGetname buf pos = some (n, stop)) : Valid n :=
  getnameGo_valid (fun _ h => absurd h List.not_mem_nil) (Nat.zero_le _) h

theorem getnameGo_forward {buf : Bytes} {loop pos state stop : Nat} {label : Label}
    {name out : Name} {first : Option Nat}
    (h : getnameGo buf loop pos state label name first = some (out, stop)) :
    first.elim (pos < stop) (stop = ·) := by
  induction loop generalizing pos state label name first with
  | zero => rw [getnameGo] at h; cases h
  | succ loop ih =>
    -- without a pointer the next round starts one octet further
    have next {pos' : Nat} (further : pos < pos') (later : first.elim (pos' < stop) (stop = ·)) :
        first.elim (pos < stop) (stop = ·) := by
      cases first with
      | none => exact further.trans later
      | some f => exact later
    rw [getnameGo] at h
    split at h
    · cases h
    · cases state with
      | succ state =>
        simp only [] at h
        split at h
        · cases h
        · split at h
          · exact next (Nat.lt_succ_self pos) (ih h)
          · exact next (Nat.lt_succ_self pos) (ih h)
      | zero =>
        simp only [] at h
        split at h
        · split at h
          · cases h
          · have later := ih h
            cases first with
            | none =>
              have stopped : stop = pos + 2 := later
              show pos < stop
              omega
            | some f => exact later
        · split at h
          · cases h
          · split at h
            · cases h
            · split at h
              · cases h
                cases first with
                | none => exact Nat.lt_succ_self pos
                | some f => rfl
              · exact next (Nat.lt_succ_self pos) (ih h)

/-- The position behind a name is behind the position it was read from. -/
theorem dnsPacketGetname_forward {buf : Bytes} {pos stop : Nat} {n : Name}
    (h : dnsPacketGetname buf pos = some (n, stop)) : pos < stop := getnameGo_forward h

/-! ## The two walkers -/

/-- Where a name was decoded, walking past it ends at the same place, inside the packet. -/
theorem getnameGo_skips {buf : Bytes} {loop pos state stop : Nat} {label : Label}
    {name out : Name} (h : getnameGo buf loop pos state label name none = some (out, stop)) :
    stop ≤ buf.length ∧
      ∀ rounds, buf.length < pos + state + rounds → skipnameGo buf rounds (pos + state) = some stop := by
  induction loop generalizing pos state label name with
  | zero => rw [getnameGo] at h; cases h
  | succ loop ih =>
    rw [getnameGo] at h
    cases hget : buf[pos]? with
    | none =>
      rw [hget] at h
      cases h
    | some ch =>
      obtain ⟨hlt, _⟩ := List.getElem?_eq_some_iff.mp hget
      rw [hget] at h
      cases state with
      | succ state =>
        -- an octet of a label: the walker has gone past it already
        have later : stop ≤ buf.length ∧ ∀ rounds, buf.length < pos + 1 + state + rounds →
            skipnameGo buf rounds (pos + 1 + state) = some stop := by
          simp only [] at h
          split at h
          · cases h
          · split at h
            · rename_i hlast
              rw [hlast]
              exact ih h
            · exact ih h
        rw [Nat.add_right_comm pos 1] at later
        exact later
      | zero =>
        simp only [] at h
        have walks (rounds : Nat) (enough : buf.length < pos + 0 + rounds) :
            ∃ n, rounds = n + 1 ∧ skipnameGo buf rounds (pos + 0) =
              if ch ≥ 192 then some (pos + 2)
              else if ch ≥ 64 then none
              else if ch = 0 then some (pos + 1)
              else skipnameGo buf n (pos + 1 + ch.toNat) := by
          obtain ⟨n, rfl⟩ := Nat.exists_eq_add_of_le' (show 1 ≤ rounds by omega)
          refine ⟨n, rfl, ?_⟩
          simp only [Nat.add_zero, skipnameGo, hget]
        split at h
        · rename_i hpointer
          cases hlo : buf[pos + 1]? with
          | none =>
            rw [hlo] at h
            cases h
          | some lo =>
            rw [hlo] at h
            have stopped : stop = pos + 2 := getnameGo_forward h
            obtain ⟨hlt', _⟩ := List.getElem?_eq_some_iff.mp hlo
            refine ⟨by omega, fun rounds enough => ?_⟩
            obtain ⟨_, _, walk⟩ := walks rounds enough
            rw [walk, if_pos hpointer, stopped]
        · rename_i hpointer
          split at h
          · cases h
          · rename_i hlabel
            split at h
            · cases h
            · split at h
              · rename_i hroot
                cases h
                refine ⟨hlt, fun rounds enough => ?_⟩
                obtain ⟨_, _, walk⟩ := walks rounds enough
                rw [walk, if_neg hpointer, if_neg hlabel, if_pos hroot]
                rfl
              · rename_i hroot
                obtain ⟨inside, later⟩ := ih h
                refine ⟨inside, fun rounds enough => ?_⟩
                obtain ⟨n, rfl, walk⟩ := walks rounds enough
                rw [walk, if_neg hpointer, if_neg hlabel, if_neg hroot]
                exact later n (by omega)

/-- The rounds that are left of the thousand end the loop. -/
theorem rounds_getname {buf : Bytes} {loop : Nat} (g : Getname) (left : g.loop + loop + 1 = 1000) :
    Loop.rounds (Getname.round buf) (loop + 1) g =
      .error (getnameGo buf loop g.pos g.state g.label g.name g.firstcompress) := by
  induction loop generalizing g with
  | zero =>
    apply Loop.rounds_return
    rw [Getname.round, getnameGo]
    cases buf[g.pos]? with
    | none => rfl
    | some ch => exact if_pos (by omega)
  | succ loop ih =>
    rw [getnameGo]
    -- the round goes on where the recursion does
    have next {g' : Getname} (hround : g.round buf = .ok g') (counted : g'.loop = g.loop + 1) :
        Loop.rounds (Getname.round buf) (loop + 1 + 1) g =
          .error (getnameGo buf loop g'.pos g'.state g'.label g'.name g'.firstcompress) :=
      (Loop.rounds_next hround).trans (ih g' (by omega))
    have ends {r : Option (Name × Nat)} (hround : g.round buf = .error r) :
        Loop.rounds (Getname.round buf) (loop + 1 + 1) g = .error r := Loop.rounds_return hround
    obtain ⟨count, pos, state, label, name, first⟩ := g
    have early : ¬ count + 1 ≥ 1000 := by
      replace left : count + (loop + 1) + 1 = 1000 := left
      omega
    simp only [Getname.round, early, if_false] at next ends ⊢
    cases hget : buf[pos]? with
    | none =>
      apply ends
      rw [hget]
    | some ch =>
      rw [hget] at next ends
      cases state with
      | succ state =>
        simp only [] at next ends ⊢
        split
        · rename_i hfull
          exact ends (if_pos hfull)
        · rename_i hfull
          rw [if_neg hfull] at next
          split
          · rename_i hlast
            exact next (if_pos hlast) rfl
          · rename_i hlast
            exact next (if_neg hlast) rfl
      | zero =>
        simp only [] at next ends ⊢
        by_cases hpointer : ch ≥ 192
        · rw [if_pos hpointer]
          rw [if_pos hpointer] at next ends
          cases hlo : buf[pos + 1]? with
          | none =>
            apply ends
            rw [hlo]
          | some lo =>
            rw [hlo] at next
            exact next rfl rfl
        · rw [if_neg hpointer]
          rw [if_neg hpointer] at next ends
          by_cases hlabel : ch ≥ 64
          · rw [if_pos hlabel]
            exact ends (if_pos hlabel)
          · rw [if_neg hlabel]
            rw [if_neg hlabel] at next ends
            by_cases hfull : span name + 1 > 255
            · rw [if_pos hfull]
              exact ends (if_pos hfull)
            · rw [if_neg hfull]
              rw [if_neg hfull] at next ends
              by_cases hroot : ch = 0
              · rw [if_pos hroot]
                exact ends (if_pos hroot)
              · rw [if_neg hroot]
                rw [if_neg hroot] at next
                exact next rfl rfl

/-- **The two walkers agree**: `dns_packet_getname` returns, after a thousand octets at most, and
what it returns is a valid name and the place inside the packet where `dns_packet_skipname` ends. -/
theorem walkers_agree (buf : Bytes) (pos : Nat) :
    Loop.rounds (Getname.round buf) 1000 (.start pos) = .error (dnsPacketGetname buf pos) ∧
      ∀ n p, dnsPacketGetname buf pos = some (n, p) →
        p ≤ buf.length ∧ Valid n ∧ (wire n).length ≤ 255 ∧ dnsPacketSkipname buf pos = some p := by
  refine ⟨rounds_getname (.start pos) rfl, fun n p h => ?_⟩
  obtain ⟨inside, skips⟩ := getnameGo_skips h
  have valid := dnsPacketGetname_valid h
  refine ⟨inside, valid, ?_, skips _ (by omega)⟩
  rw [wire_length]
  exact valid.short

/-- A name behind a pointer into the packet. -/
theorem walkers_agree_pointer :
    Loop.rounds (Getname.round [1, 97, 0, 192, 0]) 1000 (.start 3) = .error (some ([[97]], 5)) ∧
      5 ≤ [1, 97, 0, 192, 0].length ∧ Valid [[97]] ∧ (wire [[97]]).length ≤ 255 ∧
        dnsPacketSkipname [1, 97, 0, 192, 0] 3 = some 5 := by
  have decoded : dnsPacketGetname [1, 97, 0, 192, 0] 3 = some ([[97]], 5) := by decide
  obtain ⟨returns, agree⟩ := walkers_agree [1, 97, 0, 192, 0] 3
  rw [decoded] at returns
  exact ⟨returns, agree _ _ decoded⟩

/-- A pointer to itself. -/
example : dnsPacketGetname [192, 0] 0 = none := by decide +kernel

end TinyDnssec
