import TinyDnssec.Dns
import TinyDnssec.Packet

/-!
# dnscache: the addresses a packet installs

The query machine of `query.c` looks up the address of a name server one level above the query that
needs it. When a packet arrives at such a level, the end of the HAVEPACKET branch goes through the
answers once more and puts every address it accepts into a free slot of the level below,
`z->servers[z->level - 1]`.

`glueLoop` is that loop on the octets of the packet, and `havePacket` the part of the branch in
front of it that decides whether it runs. What stands in between, the caching of the records, is a
parameter: it abandons the packet or passes it on unchanged, and it touches no server block.

The two conditions of the loop are siblings: the one for A records is nested under the comparison
of the owner with the name asked for, the one for AAAA records is not. `havePacket_owned_iff` says
exactly which packets get a foreign address installed for that reason.
-/

namespace TinyDnssec.Dnscache

open Octets

/-- `V6any`: sixteen zero octets, which mark a free slot. -/
def v6any : Bytes := List.replicate 16 0

/-- `V4mappedprefix`. -/
def v4mappedprefix : Bytes := List.replicate 10 0 ++ [255, 255]

/-- The 256 octets of a level's servers, as its sixteen addresses. -/
structure ServerBlock where
  slots : List Bytes
  sixteen : slots.length = 16
  addresses : ∀ s ∈ slots, s.length = 16

/-- Put an address into the first slot that holds `V6any`. -/
def fillFirst (address : Bytes) : List Bytes → List Bytes
  | [] => []
  | s :: slots => if s = v6any then address :: slots else s :: fillFirst address slots

theorem fillFirst_length (address : Bytes) (slots : List Bytes) :
    (fillFirst address slots).length = slots.length := by
  induction slots with
  | nil => rfl
  | cons s slots ih =>
    rw [fillFirst]
    split
    · rfl
    · rw [List.length_cons, ih, List.length_cons]

theorem mem_fillFirst {address s : Bytes} {slots : List Bytes} (h : s ∈ fillFirst address slots) :
    s = address ∨ s ∈ slots := by
  induction slots with
  | nil => cases h
  | cons t slots ih =>
    rw [fillFirst] at h
    split at h
    · rcases List.mem_cons.mp h with h | h
      · exact .inl h
      · exact .inr (List.mem_cons_of_mem _ h)
    · rcases List.mem_cons.mp h with h | h
      · exact .inr (h ▸ List.mem_cons_self)
      · exact (ih h).imp_right (List.mem_cons_of_mem _)

def ServerBlock.fill (block : ServerBlock) (address : Bytes) (whole : address.length = 16) :
    ServerBlock where
  slots := fillFirst address block.slots
  sixteen := (fillFirst_length _ _).trans block.sixteen
  addresses s hs := (mem_fillFirst hs).elim (fun h => h ▸ whole) (block.addresses s)

/-- How many slots an address can still go to. -/
def ServerBlock.free (block : ServerBlock) : Nat := block.slots.count v6any

/-- A record of the answer section: its owner, its header and its data. -/
structure Answer where
  owner : Name
  header : RrHeader
  rdata : Bytes
deriving DecidableEq

/-- An address written into a slot, and the record it was taken from. -/
structure Write where
  source : Answer
  address : Bytes
deriving DecidableEq

/-- The server block of the level below, with the history of the writes to it. -/
structure Glue where
  block : ServerBlock
  writes : List Write

def typematch (rtype qtype : Bytes) : Bool :=
  decide (qtype = rtype) || decide (qtype = dnsTAny)

/-- One of the two inner loops over the slots: with a free slot, copy `outlen` octets of the packet
into it behind `front`; with none, do nothing. The copy fails when the packet ends inside the
data. -/
def deposit (buf : Bytes) (pos outlen : Nat) (front : Bytes) (whole : front.length + outlen = 16)
    (owner : Name) (header : RrHeader) (glue : Glue) : Option Glue :=
  if glue.block.free = 0 then some glue
  else
    match h : dnsPacketCopy buf pos outlen with
    | none => none
    | some (rdata, _) =>
      some {
        block := glue.block.fill (front ++ rdata) (by
          rw [List.length_append, (dnsPacketCopy_eq_some.mp h).2.1, whole])
        writes := glue.writes ++ [⟨⟨owner, header, rdata⟩, front ++ rdata⟩] }

theorem mapped_whole : v4mappedprefix.length + 4 = 16 := rfl

theorem plain_whole : ([] : Bytes).length + 16 = 16 := rfl

/-- The body of the glue address loop behind the header of a record. `Except.error` is `goto DIE`,
with what was written by then. The owner is compared for A records only. -/
def glueStep (buf : Bytes) (d t1 : Name) (header : RrHeader) (pos : Nat) (glue : Glue) :
    Except Glue Glue :=
  let mapped :=
    if dnsDomainEqual t1 d ∧ typematch header.type dnsTA ∧ header.cls = dnsCIn ∧
        header.datalen = 4 then
      deposit buf pos 4 v4mappedprefix mapped_whole t1 header glue
    else some glue
  match mapped with
  | none => .error glue
  | some glue =>
    let plain :=
      if typematch header.type dnsTAaaa ∧ header.cls = dnsCIn ∧ header.datalen = 16 then
        deposit buf pos 16 [] plain_whole t1 header glue
      else some glue
    match plain with
    | none => .error glue
    | some glue => .ok glue

/-- The glue address loop, from the record at `pos`. -/
def glueLoop (buf : Bytes) (d : Name) : Nat → Nat → Glue → Except Glue Glue
  | 0, _, glue => .ok glue
  | numanswers + 1, pos, glue =>
    match dnsPacketGetname buf pos with
    | none => .error glue
    | some (t1, pos) =>
      match dnsPacketCopy buf pos 10 with
      | none => .error glue
      | some (x, pos) =>
        match glueStep buf d t1 (rrHeader x) pos glue with
        | .error glue => .error glue
        | .ok glue => glueLoop buf d numanswers (pos + (rrHeader x).datalen) glue

/-- What has been written when the loop is left, at its end or by `goto DIE`. -/
def leftWith : Except Glue Glue → Glue
  | .ok glue => glue
  | .error glue => glue

/-! ## The branch in front of the loop -/

/-- A query of the machine: the fields of `struct query` this branch reads, each level's in its own
place. -/
structure Query where
  loop : Nat
  level : Nat
  type : Bytes
  name : Nat → Name
  control : Nat → Name
  ipv6 : Nat → Bool
  servers : Nat → ServerBlock

/-- The type a packet is asked for at the level of the query. -/
def Query.dtype (z : Query) : Bytes :=
  if z.level = 0 then z.type else if z.ipv6 z.level then dnsTAaaa else dnsTA

/-- What the records of the packet amount to. -/
structure Flags where
  out : Bool := false
  cname : Bool := false
  soa : Bool := false
  referral : Option Name := none

/-- The first pass over the answers. -/
def answerFlags (buf : Bytes) (d : Name) (dtype : Bytes) : Nat → Nat → Flags → Option (Flags × Nat)
  | 0, pos, flags => some (flags, pos)
  | n + 1, pos, flags =>
    match dnsPacketGetname buf pos with
    | none => none
    | some (t1, pos) =>
      match dnsPacketCopy buf pos 10 with
      | none => none
      | some (x, pos) =>
        let header := rrHeader x
        let next := pos + header.datalen
        if dnsDomainEqual t1 d ∧ header.cls = dnsCIn then
          if typematch header.type dtype then
            answerFlags buf d dtype n next { flags with out := true }
          else if typematch header.type dnsTCname then
            match dnsPacketGetname buf pos with
            | none => none
            | some _ => answerFlags buf d dtype n next { flags with cname := true }
          else answerFlags buf d dtype n next flags
        else answerFlags buf d dtype n next flags

/-- The pass over the authority section. -/
def authorityFlags (buf : Bytes) : Nat → Nat → Flags → Option Flags
  | 0, _, flags => some flags
  | n + 1, pos, flags =>
    match dnsPacketGetname buf pos with
    | none => none
    | some (t1, pos) =>
      match dnsPacketCopy buf pos 10 with
      | none => none
      | some (x, pos) =>
        let header := rrHeader x
        let next := pos + header.datalen
        if typematch header.type dnsTSoa then
          authorityFlags buf n next { flags with soa := true }
        else if typematch header.type dnsTNs then
          authorityFlags buf n next { flags with referral := some t1 }
        else authorityFlags buf n next flags

/-- Where the branch goes after it has read the packet. -/
inductive Route where
  | die
  | havens
  | newname
  | lowerlevel
  | answer
  | referral
  /-- The glue address loop, over so many answers from a position on. -/
  | glue (numanswers posanswers : Nat)
deriving DecidableEq

/-- The HAVEPACKET branch up to the glue address loop. `filed` says whether the caching of the
records in between went through to its end. -/
def route (maxloop : Nat) (filed : Bool) (z : Query) (buf : Bytes) : Route :=
  if z.loop + 1 = maxloop then .die
  else
    match dnsPacketCopy buf 0 12 with
    | none => .die
    | some (header, pos) =>
      match dnsPacketSkipname buf pos with
      | none => .die
      | some pos =>
        let posanswers := pos + 4
        let numanswers := unbe ((header.drop 6).take 2)
        let numauthority := unbe ((header.drop 8).take 2)
        let rcode := (header.getD 3 0).toNat % 16
        if rcode ≠ 0 ∧ rcode ≠ 3 then .die
        else
          match answerFlags buf (z.name z.level) z.dtype numanswers posanswers {} with
          | none => .die
          | some (flags, posauthority) =>
            match authorityFlags buf numauthority posauthority flags with
            | none => .die
            | some flags =>
              if ¬ flags.cname ∧ rcode = 0 ∧ ¬ flags.out ∧ ¬ flags.soa ∧
                  flags.referral.any (fun r => dnsDomainEqual r (z.control z.level) ||
                    !dnsDomainSuffix r (z.control z.level)) then .havens
              else if ¬ filed then .die
              else if flags.cname then .newname
              else if rcode = 3 then if z.level = 0 then .answer else .lowerlevel
              else if ¬ flags.out ∧ flags.soa ∧ z.level ≠ 0 ∧ z.dtype = dnsTA then .newname
              else if flags.out ∨ flags.soa ∨ flags.referral.isNone then
                if z.level = 0 then .answer else .glue numanswers posanswers
              else .referral

/-- What the branch leaves in the server block of the level below, and what it wrote there. -/
def havePacket (maxloop : Nat) (filed : Bool) (z : Query) (buf : Bytes) : Glue :=
  let glue : Glue := ⟨z.servers (z.level - 1), []⟩
  match route maxloop filed z buf with
  | .glue numanswers posanswers =>
    leftWith (glueLoop buf (z.name z.level) numanswers posanswers glue)
  | _ => glue

/-! ## Filling the slots -/

theorem typematch_iff {rtype qtype : Bytes} (h : qtype ≠ dnsTAny) :
    typematch rtype qtype = true ↔ rtype = qtype := by
  rw [typematch, Bool.or_eq_true, decide_eq_true_eq, decide_eq_true_eq, or_iff_left h, eq_comm]

/-- An address takes one free slot away, unless it is itself the mark of a free slot. -/
theorem free_fill {block : ServerBlock} {address : Bytes} (whole : address.length = 16)
    (room : block.free ≠ 0) :
    (block.fill address whole).free = if address = v6any then block.free else block.free - 1 := by
  have hcount (slots : List Bytes) (h : slots.count v6any ≠ 0) :
      (fillFirst address slots).count v6any =
        if address = v6any then slots.count v6any else slots.count v6any - 1 := by
    induction slots with
    | nil => exact absurd rfl h
    | cons s slots ih =>
      rw [fillFirst]
      by_cases hs : s = v6any
      · rw [if_pos hs, hs, List.count_cons_self, List.count_cons]
        by_cases ha : address = v6any
        · rw [if_pos ha, ha, beq_self_eq_true, if_pos rfl]
        · rw [if_neg ha, beq_eq_false_iff_ne.mpr ha, Nat.add_sub_cancel]
          rfl
      · rw [List.count_cons_of_ne hs] at h
        rw [if_neg hs, List.count_cons_of_ne hs, List.count_cons_of_ne hs]
        exact ih h
  exact hcount block.slots room

/-! ## What the loop writes -/

/-- The condition under which the loop looks for a slot for a record: an address of the name asked
for, or an AAAA record of whatever owner. -/
def Takes (d : Name) (owner : Name) (header : RrHeader) : Prop :=
  header.cls = dnsCIn ∧
    (dnsDomainEqual owner d = true ∧ header.type = dnsTA ∧ header.datalen = 4 ∨
      header.type = dnsTAaaa ∧ header.datalen = 16)

instance (d owner : Name) (header : RrHeader) : Decidable (Takes d owner header) :=
  inferInstanceAs (Decidable (_ ∧ _))

/-- The sixteen octets a record's data stands for. -/
def addressOf (a : Answer) : Bytes :=
  if a.header.type = dnsTA then v4mappedprefix ++ a.rdata else a.rdata

/-- A write the claim of the machine allows: the record is of class IN, its owner is the name asked
for, and it is an A record whose four octets were stored mapped, or an AAAA record whose sixteen
were stored as they are. -/
def Owned (d : Name) (w : Write) : Prop :=
  w.source.header.cls = dnsCIn ∧ dnsDomainEqual w.source.owner d = true ∧
    (w.source.header.type = dnsTA ∧ w.source.rdata.length = 4 ∧
        w.address = v4mappedprefix ++ w.source.rdata ∨
      w.source.header.type = dnsTAaaa ∧ w.source.rdata.length = 16 ∧ w.address = w.source.rdata)

instance (d : Name) (w : Write) : Decidable (Owned d w) := inferInstanceAs (Decidable (_ ∧ _))

theorem deposit_full {buf : Bytes} {pos outlen : Nat} {front : Bytes}
    {whole : front.length + outlen = 16} {owner : Name} {header : RrHeader} {glue : Glue}
    (full : glue.block.free = 0) :
    deposit buf pos outlen front whole owner header glue = some glue := by
  rw [deposit, if_pos full]

theorem deposit_short {buf : Bytes} {pos outlen : Nat} {front : Bytes}
    {whole : front.length + outlen = 16} {owner : Name} {header : RrHeader} {glue : Glue}
    (room : glue.block.free ≠ 0) (short : dnsPacketCopy buf pos outlen = none) :
    deposit buf pos outlen front whole owner header glue = none := by
  rw [deposit, if_neg room]
  split
  · rfl
  · rename_i h
    rw [short] at h
    cases h

theorem deposit_writes {buf : Bytes} {pos outlen stop : Nat} {front rdata : Bytes}
    {whole : front.length + outlen = 16} {owner : Name} {header : RrHeader} {glue : Glue}
    (room : glue.block.free ≠ 0) (there : dnsPacketCopy buf pos outlen = some (rdata, stop)) :
    ∃ glue', deposit buf pos outlen front whole owner header glue = some glue' ∧
      glue'.writes = glue.writes ++ [⟨⟨owner, header, rdata⟩, front ++ rdata⟩] ∧
      glue'.block.free =
        if front ++ rdata = v6any then glue.block.free else glue.block.free - 1 := by
  rw [deposit, if_neg room]
  split
  · rename_i h
    rw [there] at h
    cases h
  · rename_i h
    rw [there] at h
    cases h
    exact ⟨_, rfl, rfl, free_fill (by
      rw [List.length_append, (dnsPacketCopy_eq_some.mp there).2.1, whole]) room⟩

/-- The two conditions of the loop exclude each other, so a record is deposited at most once. -/
theorem glueStep_eq (buf : Bytes) (d t1 : Name) (header : RrHeader) (pos : Nat) (glue : Glue) :
    glueStep buf d t1 header pos glue =
      if Takes d t1 header then
        if header.type = dnsTA then
          (deposit buf pos 4 v4mappedprefix mapped_whole t1 header glue).elim (.error glue) .ok
        else (deposit buf pos 16 [] plain_whole t1 header glue).elim (.error glue) .ok
      else .ok glue := by
  have ha : typematch header.type dnsTA = true ↔ header.type = dnsTA := typematch_iff (by decide)
  have haaaa : typematch header.type dnsTAaaa = true ↔ header.type = dnsTAaaa :=
    typematch_iff (by decide)
  have hne : dnsTA ≠ dnsTAaaa := by decide
  simp only [glueStep, ha, haaaa, Takes]
  by_cases hcls : header.cls = dnsCIn
  · by_cases htype : header.type = dnsTA
    · simp only [hcls, htype, hne, true_and, false_and, or_false, if_true, if_false]
      by_cases hown : dnsDomainEqual t1 d = true ∧ header.datalen = 4
      · simp only [if_pos hown]
        cases deposit buf pos 4 v4mappedprefix mapped_whole t1 header glue <;> rfl
      · simp only [if_neg hown]
    · simp only [hcls, htype, true_and, false_and, and_false, false_or, if_false]
      by_cases hplain : header.type = dnsTAaaa ∧ header.datalen = 16
      · simp only [if_pos hplain]
        cases deposit buf pos 16 [] plain_whole t1 header glue <;> rfl
      · simp only [if_neg hplain]
  · simp only [hcls, false_and, and_false, if_false]

theorem glueStep_skip {buf : Bytes} {d t1 : Name} {header : RrHeader} {pos : Nat} {glue : Glue}
    (passed : ¬ Takes d t1 header) : glueStep buf d t1 header pos glue = .ok glue := by
  rw [glueStep_eq, if_neg passed]

theorem glueStep_full {buf : Bytes} {d t1 : Name} {header : RrHeader} {pos : Nat} {glue : Glue}
    (full : glue.block.free = 0) : glueStep buf d t1 header pos glue = .ok glue := by
  rw [glueStep_eq]
  split
  · split <;> rw [deposit_full full] <;> rfl
  · rfl

/-- A record that is taken while there is room leaves its address behind. -/
theorem glueStep_writes {buf rdata : Bytes} {d t1 : Name} {header : RrHeader} {pos stop : Nat}
    {glue : Glue} (taken : Takes d t1 header) (room : glue.block.free ≠ 0)
    (there : dnsPacketCopy buf pos header.datalen = some (rdata, stop)) :
    ∃ glue', glueStep buf d t1 header pos glue = .ok glue' ∧
      glue'.writes =
        glue.writes ++ [⟨⟨t1, header, rdata⟩, addressOf ⟨t1, header, rdata⟩⟩] ∧
      glue'.block.free = if addressOf ⟨t1, header, rdata⟩ = v6any then glue.block.free
        else glue.block.free - 1 := by
  rw [glueStep_eq, if_pos taken]
  rcases taken.2 with ⟨_, htype, hlen⟩ | ⟨htype, hlen⟩
  · rw [hlen] at there
    obtain ⟨glue', hdeposit, hwrites, hfree⟩ := deposit_writes room there
    refine ⟨glue', ?_, ?_, ?_⟩
    · rw [if_pos htype, hdeposit]; rfl
    · rw [hwrites, addressOf, if_pos htype]
    · rw [hfree, addressOf, if_pos htype]
  · have hne : header.type ≠ dnsTA := by rw [htype]; decide
    rw [hlen] at there
    obtain ⟨glue', hdeposit, hwrites, hfree⟩ := deposit_writes room there
    refine ⟨glue', ?_, ?_, ?_⟩
    · rw [if_neg hne, hdeposit]; rfl
    · rw [hwrites, addressOf, if_neg hne, List.nil_append]
    · rw [hfree, addressOf, if_neg hne, List.nil_append]

/-- Data the packet ends inside of is never written. -/
theorem glueStep_short {buf : Bytes} {d t1 : Name} {header : RrHeader} {pos : Nat} {glue : Glue}
    (short : dnsPacketCopy buf pos header.datalen = none) :
    leftWith (glueStep buf d t1 header pos glue) = glue := by
  by_cases room : glue.block.free = 0
  · rw [glueStep_full room]; rfl
  · rw [glueStep_eq]
    split
    · rename_i taken
      rcases taken.2 with ⟨_, htype, hlen⟩ | ⟨htype, hlen⟩
      · rw [hlen] at short
        rw [if_pos htype, deposit_short room short]; rfl
      · have hne : header.type ≠ dnsTA := by rw [htype]; decide
        rw [hlen] at short
        rw [if_neg hne, deposit_short room short]; rfl
    · rfl

/-! ## The loop over whole records -/

/-- The records of the answer section, as far as they stand in the packet with all their data. -/
def answers (buf : Bytes) : Nat → Nat → List Answer
  | 0, _ => []
  | n + 1, pos =>
    match dnsPacketGetname buf pos with
    | none => []
    | some (t1, pos) =>
      match dnsPacketCopy buf pos 10 with
      | none => []
      | some (x, pos) =>
        match dnsPacketCopy buf pos (rrHeader x).datalen with
        | none => []
        | some (rdata, pos) => ⟨t1, rrHeader x, rdata⟩ :: answers buf n pos

/-- A record that is taken although its owner is another name. -/
def Foreign (d : Name) (a : Answer) : Prop :=
  Takes d a.owner a.header ∧ dnsDomainEqual a.owner d = false

instance (d : Name) (a : Answer) : Decidable (Foreign d a) := inferInstanceAs (Decidable (_ ∧ _))

/-- A record that takes a free slot away. -/
def Occupies (d : Name) (a : Answer) : Prop :=
  Takes d a.owner a.header ∧ addressOf a ≠ v6any

instance (d : Name) (a : Answer) : Decidable (Occupies d a) := inferInstanceAs (Decidable (_ ∧ _))

/-- The condition under which no foreign address is written: when the first AAAA record of another
name comes, the addresses in front of it have taken all the free slots. -/
def Sheltered (d : Name) (free : Nat) (as : List Answer) : Prop :=
  (∃ a ∈ as, Foreign d a) →
    free ≤ (as.takeWhile (fun a => !decide (Foreign d a))).countP fun a => decide (Occupies d a)

theorem sheltered_foreign {d : Name} {free : Nat} {a : Answer} {as : List Answer}
    (foreign : Foreign d a) : Sheltered d free (a :: as) ↔ free = 0 := by
  have htake : (a :: as).takeWhile (fun a => !decide (Foreign d a)) = [] := by
    rw [List.takeWhile_cons, decide_eq_true foreign]
    rfl
  rw [Sheltered, htake, List.countP_nil, Nat.le_zero]
  exact ⟨fun h => h ⟨a, List.mem_cons_self, foreign⟩, fun h _ => h⟩

theorem sheltered_own {d : Name} {free : Nat} {a : Answer} {as : List Answer}
    (own : ¬ Foreign d a) :
    Sheltered d free (a :: as) ↔ Sheltered d (if Occupies d a then free - 1 else free) as := by
  have htake : (a :: as).takeWhile (fun a => !decide (Foreign d a)) =
      a :: as.takeWhile (fun a => !decide (Foreign d a)) := by
    rw [List.takeWhile_cons, decide_eq_false own]
    rfl
  have hex : (∃ b ∈ a :: as, Foreign d b) ↔ ∃ b ∈ as, Foreign d b := by
    rw [List.exists_mem_cons_iff, or_iff_right own]
  rw [Sheltered, Sheltered, htake, hex, List.countP_cons]
  refine imp_congr_right fun _ => ?_
  by_cases h : Occupies d a
  · rw [if_pos h, decide_eq_true h, if_pos rfl]
    omega
  · rw [if_neg h, decide_eq_false h, if_neg Bool.false_ne_true, Nat.add_zero]

theorem sheltered_nil (d : Name) (free : Nat) : Sheltered d free [] :=
  fun ⟨_, h, _⟩ => absurd h List.not_mem_nil

theorem sheltered_zero (d : Name) (as : List Answer) : Sheltered d 0 as :=
  fun _ => Nat.zero_le _

/-- What a record of the name asked for leaves behind is a write the machine may make. -/
theorem owned_of_takes {d : Name} {a : Answer} (taken : Takes d a.owner a.header)
    (whole : a.rdata.length = a.header.datalen) :
    Owned d ⟨a, addressOf a⟩ ↔ dnsDomainEqual a.owner d = true := by
  refine ⟨fun h => h.2.1, fun own => ⟨taken.1, own, ?_⟩⟩
  rcases taken.2 with ⟨_, htype, hlen⟩ | ⟨htype, hlen⟩
  · exact .inl ⟨htype, whole.trans hlen, if_pos htype⟩
  · exact .inr ⟨htype, whole.trans hlen, if_neg (by rw [htype]; decide)⟩

/-- The step of the loop over one whole record: what it says of the writes so far, and what
condition it leaves to the records behind. -/
theorem glueStep_owned {buf : Bytes} (d t1 : Name) {header : RrHeader} {rdata : Bytes}
    {pos stop : Nat} (there : dnsPacketCopy buf pos header.datalen = some (rdata, stop))
    (glue : Glue) (as : List Answer) :
    ∃ glue', glueStep buf d t1 header pos glue = .ok glue' ∧
      ((∀ w ∈ glue'.writes, Owned d w) ∧ Sheltered d glue'.block.free as ↔
        (∀ w ∈ glue.writes, Owned d w) ∧
          Sheltered d glue.block.free (⟨t1, header, rdata⟩ :: as)) := by
  have whole : rdata.length = header.datalen := (dnsPacketCopy_eq_some.mp there).2.1
  by_cases taken : Takes d t1 header
  · by_cases room : glue.block.free = 0
    · refine ⟨glue, glueStep_full room, ?_⟩
      rw [room]
      exact and_congr_right fun _ => iff_of_true (sheltered_zero d _) (sheltered_zero d _)
    · obtain ⟨glue', hstep, hwrites, hfree⟩ := glueStep_writes taken room there
      refine ⟨glue', hstep, ?_⟩
      have howned := @owned_of_takes d ⟨t1, header, rdata⟩ taken whole
      rw [hwrites, List.forall_mem_append, List.forall_mem_singleton, howned, and_assoc]
      refine and_congr_right fun _ => ?_
      cases hown : dnsDomainEqual t1 d with
      | true =>
        have hnot : ¬ Foreign d ⟨t1, header, rdata⟩ := fun h => by
          rw [Foreign, hown] at h
          cases h.2
        have hoccupies : Occupies d ⟨t1, header, rdata⟩ ↔
            addressOf ⟨t1, header, rdata⟩ ≠ v6any := and_iff_right taken
        rw [sheltered_own hnot, hfree]
        simp only [true_and, hoccupies, ne_eq, ite_not]
      | false =>
        rw [sheltered_foreign ⟨taken, hown⟩]
        exact iff_of_false (fun h => Bool.false_ne_true h.1) room
  · refine ⟨glue, glueStep_skip taken, ?_⟩
    have hnot : ¬ Foreign d ⟨t1, header, rdata⟩ := fun h => taken h.1
    have hkeeps : ¬ Occupies d ⟨t1, header, rdata⟩ := fun h => taken h.1
    rw [sheltered_own hnot, if_neg hkeeps]

/-- **The glue loop writes owned addresses only, exactly when its answers are sheltered.** -/
theorem glueLoop_owned (buf : Bytes) (d : Name) (numanswers pos : Nat) (glue : Glue) :
    (∀ w ∈ (leftWith (glueLoop buf d numanswers pos glue)).writes, Owned d w) ↔
      (∀ w ∈ glue.writes, Owned d w) ∧
        Sheltered d glue.block.free (answers buf numanswers pos) := by
  induction numanswers generalizing pos glue with
  | zero => exact (and_iff_left (sheltered_nil d _)).symm
  | succ n ih =>
    rw [glueLoop, answers]
    cases dnsPacketGetname buf pos with
    | none => exact (and_iff_left (sheltered_nil d _)).symm
    | some owner =>
      obtain ⟨t1, pos⟩ := owner
      simp only []
      cases dnsPacketCopy buf pos 10 with
      | none => exact (and_iff_left (sheltered_nil d _)).symm
      | some fixed =>
        obtain ⟨x, pos⟩ := fixed
        simp only []
        cases hcopy : dnsPacketCopy buf pos (rrHeader x).datalen with
        | none =>
          have hstays : leftWith (glueStep buf d t1 (rrHeader x) pos glue) = glue :=
            glueStep_short hcopy
          have hbehind := dnsPacketGetname_behind (length_lt_of_dnsPacketCopy hcopy).le
          cases hstep : glueStep buf d t1 (rrHeader x) pos glue with
          | error glue' =>
            rw [hstep] at hstays
            rw [show glue' = glue from hstays]
            exact (and_iff_left (sheltered_nil d _)).symm
          | ok glue' =>
            rw [hstep] at hstays
            rw [show glue' = glue from hstays]
            have hends : leftWith (glueLoop buf d n (pos + (rrHeader x).datalen) glue) = glue := by
              cases n with
              | zero => rfl
              | succ n => rw [glueLoop, hbehind]; rfl
            simp only [hends]
            exact (and_iff_left (sheltered_nil d _)).symm
        | some data =>
          obtain ⟨rdata, stop⟩ := data
          obtain ⟨glue', hstep, howned⟩ :=
            glueStep_owned d t1 hcopy glue (answers buf n stop)
          obtain ⟨rfl, _⟩ := dnsPacketCopy_eq_some.mp hcopy
          rw [hstep]
          exact (ih _ glue').trans howned

/-- **Which packets install only addresses of the name server asked for.** For every packet and
every state of the query, all that the branch writes into the servers of the level below are
addresses of the name server it looks up, exactly when the branch does not get to the glue loop or
the first AAAA record of another name finds no free slot. -/
theorem havePacket_owned_iff (maxloop : Nat) (filed : Bool) (z : Query) (buf : Bytes) :
    (∀ w ∈ (havePacket maxloop filed z buf).writes, Owned (z.name z.level) w) ↔
      ∀ numanswers posanswers, route maxloop filed z buf = .glue numanswers posanswers →
        Sheltered (z.name z.level) (z.servers (z.level - 1)).free
          (answers buf numanswers posanswers) := by
  rw [havePacket]
  split
  · rename_i numanswers posanswers hroute
    rw [glueLoop_owned]
    constructor
    · rintro ⟨_, sheltered⟩ n p hglue
      rw [hroute] at hglue
      cases hglue
      exact sheltered
    · exact fun h => ⟨fun _ hw => absurd hw List.not_mem_nil, h _ _ hroute⟩
  · rename_i hother
    exact iff_of_true (fun _ hw => absurd hw List.not_mem_nil)
      fun n p hglue => absurd hglue (hother n p)

/-- A query one level up, for the address of the name server `n.a`, with no server known below. -/
def askingForNs : Query where
  loop := 0
  level := 1
  type := dnsTA
  name _ := [ascii "n", ascii "a"]
  control _ := [ascii "a"]
  ipv6 _ := false
  servers _ := ⟨List.replicate 16 v6any, List.length_replicate ..,
    fun s hs => by rw [List.eq_of_mem_replicate hs]; rfl⟩

/-- A reply to the question `n.a A`, whose one answer is an AAAA record of the name `x`. -/
def foreignPacket : Bytes :=
  [7, 7, 132, 0, 0, 1, 0, 1, 0, 0, 0, 0] ++
  wire [ascii "n", ascii "a"] ++ dnsTA ++ dnsCIn ++
  wire [ascii "x"] ++ dnsTAaaa ++ dnsCIn ++ [0, 0, 0, 60, 0, 16] ++ List.replicate 16 32

/-- The address of `x` becomes a server to be asked. -/
theorem havePacket_foreign :
    ¬ ∀ w ∈ (havePacket 100 true askingForNs foreignPacket).writes,
      Owned (askingForNs.name askingForNs.level) w := by
  decide +kernel

end TinyDnssec.Dnscache
