import TinyDnssec.Query.Machine

/-!
# dnscache: record sets as strings

A record set is saved as one string, in a form that depends on its type: the names of NS and PTR
records back to back, an MX preference in front of its name, the numbers of an SOA in front of its
two names, addresses as they are, and anything else behind its length. `Cached` is that form, of one
record; `item` writes it and `decode` reads it back.

That a string in the cache is one of these is not said here.
-/

namespace TinyDnssec.Dnscache

open Octets

/-! ## The records of a packet -/

/-- The length of a record's data, as the record gives it. `pos` is the position behind the owner. -/
def datalenAt (buf : Bytes) (pos : Nat) : Nat := (rrHeader ((buf.drop pos).take 10)).datalen

/-- The data of a record, in the pieces that a reply has for its type. -/
def rdataAt (buf type : Bytes) (record : Nat) : Option (List Part) :=
  match dnsPacketSkipname buf record with
  | none => none
  | some pos =>
    if type = dnsTNs ∨ type = dnsTPtr then
      (dnsPacketGetname buf (pos + 10)).map fun (t2, _) => [.name t2]
    else if type = dnsTMx then
      match dnsPacketCopy buf (pos + 10) 2 with
      | none => none
      | some (misc, pos) => (dnsPacketGetname buf pos).map fun (t2, _) => [.octets misc, .name t2]
    else if type = dnsTSoa then
      match dnsPacketGetname buf (pos + 10) with
      | none => none
      | some (t2, pos) =>
        match dnsPacketGetname buf pos with
        | none => none
        | some (t3, pos) =>
          (dnsPacketCopy buf pos 20).map fun (misc, _) => [.name t2, .name t3, .octets misc]
    else (dnsPacketCopy buf (pos + 10) (datalenAt buf pos)).map fun (s, _) => [.octets s]

/-- Which records of a set are saved: of an SOA set those of the answer section, and of an address
set those with an address. -/
def kept (buf : Bytes) (posauthority : Nat) (type : Bytes) (record : Nat) : Bool :=
  if type = dnsTSoa then decide (record < posauthority)
  else
    (dnsPacketSkipname buf record).any fun pos =>
      if type = dnsTA then decide (datalenAt buf pos = 4)
      else if type = dnsTAaaa then decide (datalenAt buf pos = 16)
      else true

/-! ## The form of a record in the cache -/

def NameForm (parts : List Part) (s : Bytes) : Prop :=
  ∃ t2, Valid t2 ∧ parts = [.name t2] ∧ s = wire t2

def MxForm (parts : List Part) (s : Bytes) : Prop :=
  ∃ misc t2, misc.length = 2 ∧ Valid t2 ∧ parts = [.octets misc, .name t2] ∧ s = misc ++ wire t2

def SoaForm (parts : List Part) (s : Bytes) : Prop :=
  ∃ misc t2 t3, misc.length = 20 ∧ Valid t2 ∧ Valid t3 ∧
    parts = [.name t2, .name t3, .octets misc] ∧ s = misc ++ (wire t2 ++ wire t3)

def AddressForm (size : Nat) (parts : List Part) (s : Bytes) : Prop :=
  s.length = size ∧ parts = [.octets s]

def OtherForm (parts : List Part) (s : Bytes) : Prop :=
  ∃ data, data.length < 65536 ∧ parts = [.octets data] ∧ s = be16 data.length ++ data

/-- The string that the data of one record is cached as. -/
def Cached (type : Bytes) : List Part → Bytes → Prop :=
  if type = dnsTNs ∨ type = dnsTPtr then NameForm
  else if type = dnsTMx then MxForm
  else if type = dnsTSoa then SoaForm
  else if type = dnsTA then AddressForm 4
  else if type = dnsTAaaa then AddressForm 16
  else OtherForm

theorem Cached.valid {type s : Bytes} {parts : List Part} (h : Cached type parts s) {n : Name}
    (mem : .name n ∈ parts) : Valid n := by
  unfold Cached at h
  split_ifs at h
  · obtain ⟨t2, valid, rfl, _⟩ := h
    cases List.mem_singleton.mp mem
    exact valid
  · obtain ⟨misc, t2, _, valid, rfl, _⟩ := h
    rw [List.mem_cons, List.mem_singleton] at mem
    rcases mem with mem | mem <;> cases mem
    exact valid
  · obtain ⟨misc, t2, t3, _, valid, valid', rfl, _⟩ := h
    rw [List.mem_cons, List.mem_cons, List.mem_singleton] at mem
    rcases mem with mem | mem | mem <;> cases mem
    · exact valid
    · exact valid'
  · obtain ⟨_, rfl⟩ := h
    cases List.mem_singleton.mp mem
  · obtain ⟨_, rfl⟩ := h
    cases List.mem_singleton.mp mem
  · obtain ⟨data, _, rfl, _⟩ := h
    cases List.mem_singleton.mp mem

theorem wire_ne_nil (d : Name) : wire d ≠ [] := by
  cases d <;> simp [wire]

/-! ## Reading back -/

/-- A loop that reads item after item from `pos` on reads what was written item by item. -/
theorem reads_back {β : Type} {form : β → Bytes → Prop} (data : Bytes)
    (next : Nat → Option (β × Nat)) (loop : Nat → Nat → List β)
    (stop : ∀ k pos, next pos = none → loop (k + 1) pos = [])
    (more : ∀ k pos x pos', next pos = some (x, pos') → loop (k + 1) pos = x :: loop k pos')
    (finish : ∀ pos, data.length ≤ pos → next pos = none)
    (reads : ∀ x s pos, form x s → s <+: data.drop pos → next pos = some (x, pos + s.length))
    {items : List β} {strings : List Bytes} (forms : List.Forall₂ form items strings)
    (rounds pos : Nat) (enough : items.length ≤ rounds) (there : data.drop pos = strings.flatten) :
    loop (rounds + 1) pos = items := by
  induction forms generalizing rounds pos with
  | nil => exact stop _ _ (finish pos (List.drop_eq_nil_iff.mp there))
  | @cons x s items strings first _ ih =>
    have front : s <+: data.drop pos := ⟨strings.flatten, by rw [there, List.flatten_cons]⟩
    have behind : data.drop (pos + s.length) = strings.flatten := by
      rw [← List.drop_drop, there, List.flatten_cons, List.drop_left]
    rw [List.length_cons] at enough
    obtain ⟨k, rfl⟩ : ∃ k, rounds = k + 1 := ⟨rounds - 1, by omega⟩
    rw [more _ _ _ _ (reads x s pos first front), ih k _ (by omega) behind]

/-- Every item takes room in the string. -/
theorem forms_length_le {β : Type} {form : β → Bytes → Prop} {items : List β} {strings : List Bytes}
    (forms : List.Forall₂ form items strings) (some : ∀ x s, form x s → s ≠ []) :
    items.length ≤ strings.flatten.length := by
  induction forms with
  | nil => exact Nat.zero_le _
  | cons first _ ih =>
    have := List.length_pos_of_ne_nil (some _ _ first)
    rw [List.flatten_cons, List.length_append, List.length_cons]
    omega

theorem decodeNames_reads {rdatas : List (List Part)} {strings : List Bytes}
    (forms : List.Forall₂ NameForm rdatas strings) :
    (decodeNames strings.flatten (strings.flatten.length + 1) 0).map (fun t2 => [.name t2]) =
      rdatas := by
  refine reads_back strings.flatten
    (fun pos => (dnsPacketGetname strings.flatten pos).map fun (t2, pos) => ([Part.name t2], pos))
    (fun k pos => (decodeNames strings.flatten k pos).map fun t2 => [.name t2])
    ?_ ?_ ?_ ?_ forms _ 0 ?_ rfl
  · intro k pos none
    rw [decodeNames, Option.map_eq_none_iff.mp none]
    rfl
  · intro k pos x pos' some
    obtain ⟨⟨t2, stop⟩, hname, same⟩ := Option.map_eq_some_iff.mp some
    cases same
    rw [decodeNames, hname]
    rfl
  · intro pos past
    rw [dnsPacketGetname_behind past]
    rfl
  · rintro _ _ pos ⟨t2, valid, rfl, rfl⟩ there
    rw [dnsPacketGetname_wire valid there, wire_length]
    rfl
  · refine forms_length_le forms ?_
    rintro _ _ ⟨t2, _, _, rfl⟩
    exact wire_ne_nil t2

theorem copy_behind {data : Bytes} {pos outlen : Nat} (past : data.length ≤ pos) (some : 0 < outlen) :
    dnsPacketCopy data pos outlen = none := by
  obtain ⟨n, rfl⟩ : ∃ n, outlen = n + 1 := ⟨outlen - 1, by omega⟩
  rw [dnsPacketCopy, List.getElem?_eq_none past]

/-- What `decodeMx` reads in one round. -/
def nextMx (data : Bytes) (pos : Nat) : Option (List Part × Nat) :=
  match dnsPacketCopy data pos 2 with
  | none => none
  | some (misc, pos) =>
    (dnsPacketGetname data pos).map fun (t2, pos) => ([.octets misc, .name t2], pos)

theorem decodeMx_reads {rdatas : List (List Part)} {strings : List Bytes}
    (forms : List.Forall₂ MxForm rdatas strings) :
    decodeMx strings.flatten (strings.flatten.length + 1) 0 = rdatas := by
  refine reads_back _ (nextMx strings.flatten) (decodeMx strings.flatten) ?_ ?_ ?_ ?_ forms _ 0 ?_ rfl
  · intro k pos stops
    rw [nextMx] at stops
    rw [decodeMx]
    cases hcopy : dnsPacketCopy strings.flatten pos 2 with
    | none => rfl
    | some field =>
      obtain ⟨misc, mid⟩ := field
      rw [hcopy] at stops
      have hname : dnsPacketGetname strings.flatten mid = none := Option.map_eq_none_iff.mp stops
      simp only [hname]
  · intro k pos x pos' reads
    rw [nextMx] at reads
    rw [decodeMx]
    cases hcopy : dnsPacketCopy strings.flatten pos 2 with
    | none =>
      rw [hcopy] at reads
      cases reads
    | some field =>
      obtain ⟨misc, mid⟩ := field
      rw [hcopy] at reads
      obtain ⟨⟨t2, stop⟩, hname, same⟩ := Option.map_eq_some_iff.mp reads
      cases same
      simp only [hname]
  · intro pos past
    unfold nextMx
    rw [copy_behind past (by omega)]
  · rintro _ _ pos ⟨misc, t2, two, valid, rfl, rfl⟩ there
    obtain ⟨front, behind⟩ := prefix_of_append there
    unfold nextMx
    rw [← two, dnsPacketCopy_of_field front]
    simp only []
    rw [dnsPacketGetname_wire valid behind]
    simp only [List.length_append, wire_length, Option.map_some, ← Nat.add_assoc]
  · refine forms_length_le forms ?_
    rintro _ _ ⟨misc, t2, _, _, _, rfl⟩
    exact List.append_ne_nil_of_right_ne_nil _ (wire_ne_nil t2)

/-- What `decodeSoa` reads in one round. -/
def nextSoa (data : Bytes) (pos : Nat) : Option (List Part × Nat) :=
  match dnsPacketCopy data pos 20 with
  | none => none
  | some (misc, pos) =>
    match dnsPacketGetname data pos with
    | none => none
    | some (t2, pos) =>
      (dnsPacketGetname data pos).map fun (t3, pos) => ([.name t2, .name t3, .octets misc], pos)

theorem decodeSoa_reads {rdatas : List (List Part)} {strings : List Bytes}
    (forms : List.Forall₂ SoaForm rdatas strings) :
    decodeSoa strings.flatten (strings.flatten.length + 1) 0 = rdatas := by
  refine reads_back _ (nextSoa strings.flatten) (decodeSoa strings.flatten) ?_ ?_ ?_ ?_ forms _ 0 ?_
    rfl
  · intro k pos stops
    rw [nextSoa] at stops
    rw [decodeSoa]
    cases hcopy : dnsPacketCopy strings.flatten pos 20 with
    | none => rfl
    | some field =>
      obtain ⟨misc, mid⟩ := field
      rw [hcopy] at stops
      cases hname : dnsPacketGetname strings.flatten mid with
      | none => simp only [hname]
      | some name =>
        obtain ⟨t2, mid'⟩ := name
        simp only [hname] at stops
        have hname' : dnsPacketGetname strings.flatten mid' = none :=
          Option.map_eq_none_iff.mp stops
        simp only [hname, hname']
  · intro k pos x pos' reads
    rw [nextSoa] at reads
    rw [decodeSoa]
    cases hcopy : dnsPacketCopy strings.flatten pos 20 with
    | none =>
      rw [hcopy] at reads
      cases reads
    | some field =>
      obtain ⟨misc, mid⟩ := field
      rw [hcopy] at reads
      cases hname : dnsPacketGetname strings.flatten mid with
      | none =>
        simp only [hname] at reads
        cases reads
      | some name =>
        obtain ⟨t2, mid'⟩ := name
        simp only [hname] at reads
        obtain ⟨⟨t3, stop⟩, hname', same⟩ := Option.map_eq_some_iff.mp reads
        cases same
        simp only [hname, hname']
  · intro pos past
    unfold nextSoa
    rw [copy_behind past (by omega)]
  · rintro _ _ pos ⟨misc, t2, t3, twenty, valid, valid', rfl, rfl⟩ there
    obtain ⟨front, behind⟩ := prefix_of_append there
    obtain ⟨first, second⟩ := prefix_of_append behind
    rw [wire_length, ← Nat.add_assoc] at second
    unfold nextSoa
    rw [← twenty, dnsPacketCopy_of_field front]
    simp only []
    rw [dnsPacketGetname_wire valid first]
    simp only [← Nat.add_assoc]
    rw [dnsPacketGetname_wire valid' second]
    simp only [List.length_append, wire_length, Option.map_some, ← Nat.add_assoc]
  · refine forms_length_le forms ?_
    rintro _ _ ⟨misc, t2, t3, _, _, _, _, rfl⟩
    exact List.append_ne_nil_of_right_ne_nil _ (List.append_ne_nil_of_right_ne_nil _ (wire_ne_nil t3))

theorem decodeItems_reads {size : Nat} (some : 0 < size) {rdatas : List (List Part)}
    {strings : List Bytes} (forms : List.Forall₂ (AddressForm size) rdatas strings) (rounds : Nat)
    (enough : rdatas.length ≤ rounds) :
    (decodeItems size (rounds + 1) strings.flatten).map (fun a => [.octets a]) = rdatas := by
  induction forms generalizing rounds with
  | nil =>
    rw [decodeItems, if_neg (by rw [List.flatten_nil, List.length_nil]; omega)]
    rfl
  | @cons parts s rdatas strings first _ ih =>
    obtain ⟨whole, rfl⟩ := first
    rw [List.length_cons] at enough
    obtain ⟨k, rfl⟩ : ∃ k, rounds = k + 1 := ⟨rounds - 1, by omega⟩
    rw [decodeItems, if_pos (by rw [List.flatten_cons, List.length_append]; omega), List.flatten_cons,
      ← whole, List.take_left, List.drop_left, whole, List.map_cons, ih k (by omega)]

theorem decodeOther_reads {rdatas : List (List Part)} {strings : List Bytes}
    (forms : List.Forall₂ OtherForm rdatas strings) (rounds : Nat) (enough : rdatas.length ≤ rounds) :
    (decodeOther (rounds + 1) strings.flatten).map (fun items => items.map fun a => [.octets a]) =
      some rdatas := by
  induction forms generalizing rounds with
  | nil => rfl
  | @cons parts s rdatas strings first _ ih =>
    obtain ⟨data, short, rfl, rfl⟩ := first
    rw [List.length_cons] at enough
    obtain ⟨k, rfl⟩ : ∃ k, rounds = k + 1 := ⟨rounds - 1, by omega⟩
    obtain ⟨items, hitems, same⟩ := Option.map_eq_some_iff.mp (ih k (by omega))
    have two : (be16 data.length).length = 2 := be16_length _
    have front : (be16 data.length ++ data ++ strings.flatten).take 2 = be16 data.length := by
      rw [List.append_assoc, ← two, List.take_left]
    have behind : (be16 data.length ++ data ++ strings.flatten).drop 2 = data ++ strings.flatten := by
      rw [List.append_assoc, ← two, List.drop_left]
    rw [decodeOther, if_pos (by simp only [List.flatten_cons, List.length_append, two]; omega),
      List.flatten_cons, front, behind, unbe_be16 short]
    simp only []
    rw [if_neg (by rw [List.length_append]; omega), List.take_left, List.drop_left, hitems, ← same]
    rfl

/-- **What is cached reads back**: the records, all of them and in their order. -/
theorem decode_reads {type : Bytes} {rdatas : List (List Part)} {strings : List Bytes}
    (forms : List.Forall₂ (Cached type) rdatas strings) : decode type strings.flatten = some rdatas := by
  unfold Cached at forms
  unfold decode
  by_cases named : type = dnsTNs ∨ type = dnsTPtr
  · rw [if_pos named] at forms ⊢
    rw [decodeNames_reads forms]
  rw [if_neg named] at forms ⊢
  by_cases mx : type = dnsTMx
  · rw [if_pos mx] at forms ⊢
    rw [decodeMx_reads forms]
  rw [if_neg mx] at forms ⊢
  by_cases soa : type = dnsTSoa
  · rw [if_pos soa] at forms ⊢
    rw [decodeSoa_reads forms]
  rw [if_neg soa] at forms ⊢
  have addresses : ∀ {size : Nat}, 0 < size → ∀ parts s, AddressForm size parts s → s ≠ [] := by
    rintro size some parts s ⟨whole, _⟩
    exact List.ne_nil_of_length_pos (whole ▸ some)
  by_cases a : type = dnsTA
  · rw [if_pos a] at forms ⊢
    rw [decodeItems_reads (by omega) forms _ (forms_length_le forms (addresses (by omega)))]
  rw [if_neg a] at forms ⊢
  by_cases aaaa : type = dnsTAaaa
  · rw [if_pos aaaa] at forms ⊢
    rw [decodeItems_reads (by omega) forms _ (forms_length_le forms (addresses (by omega)))]
  rw [if_neg aaaa] at forms ⊢
  apply decodeOther_reads forms
  apply forms_length_le forms
  rintro _ _ ⟨data, _, _, rfl⟩
  exact List.append_ne_nil_of_left_ne_nil (by simp [be16]) _

/-! ## Saving -/

/-- What one record adds to the saved string: nothing, or the form of its data. -/
def Saves (buf : Bytes) (posauthority : Nat) (type : Bytes) (record : Nat) (strings : List Bytes) :
    Prop :=
  if kept buf posauthority type record then
    ∃ parts, rdataAt buf type record = some parts ∧ Cached type parts strings.flatten
  else strings = []

theorem orDie_eq_ok {α : Type} {x : Option α} {a : α} : orDie x = .ok a ↔ x = some a := by
  cases x with
  | none => exact iff_of_false nofun nofun
  | some b => exact ⟨fun h => congrArg some (Except.ok.inj h), fun h => congrArg _ (Option.some.inj h)⟩

/-- The ten octets that are copied are those that `datalenAt` looks at. -/
theorem datalenAt_of_copy {buf header : Bytes} {pos stop : Nat}
    (h : dnsPacketCopy buf pos 10 = some (header, stop)) :
    stop = pos + 10 ∧ (rrHeader header).datalen = datalenAt buf pos ∧ header.length = 10 := by
  obtain ⟨hstop, ten, there⟩ := dnsPacketCopy_eq_some.mp h
  refine ⟨hstop, ?_, ten⟩
  obtain ⟨rest, hrest⟩ := there
  unfold datalenAt
  rw [← hrest, ← ten, List.take_left]

theorem itemSoa_saves {buf : Bytes} {posauthority record : Nat} {strings : List Bytes}
    (h : itemSoa buf posauthority record = .ok strings) :
    Saves buf posauthority dnsTSoa record strings := by
  obtain ⟨pos, hpos, h⟩ := Loop.bind_eq_ok.mp h
  obtain ⟨⟨t2, pos₂⟩, hname, h⟩ := Loop.bind_eq_ok.mp h
  obtain ⟨⟨t3, pos₃⟩, hname', h⟩ := Loop.bind_eq_ok.mp h
  obtain ⟨⟨misc, stop⟩, hcopy, h⟩ := Loop.bind_eq_ok.mp h
  rw [orDie_eq_ok] at hpos hname hname' hcopy
  replace h : (if record < posauthority then Except.ok [misc, wire t2, wire t3] else .ok []) =
    .ok strings := h
  unfold Saves kept
  rw [if_pos rfl]
  split at h
  · rename_i before
    rw [if_pos (decide_eq_true before)]
    cases h
    refine ⟨[.name t2, .name t3, .octets misc], ?_, misc, t2, t3,
      (dnsPacketCopy_eq_some.mp hcopy).2.1, dnsPacketGetname_valid hname,
      dnsPacketGetname_valid hname', rfl, ?_⟩
    · unfold rdataAt
      rw [hpos]
      simp only [hname, hname', hcopy]
      rfl
    · simp only [List.flatten_cons, List.flatten_nil, List.append_nil]
  · rename_i behind
    rw [if_neg (fun before => behind (of_decide_eq_true before))]
    cases h
    rfl

/-- A record of a type all of whose records are saved. -/
theorem kept_all {buf type : Bytes} {posauthority record pos : Nat} (soa : type ≠ dnsTSoa)
    (a : type ≠ dnsTA) (aaaa : type ≠ dnsTAaaa) (hpos : dnsPacketSkipname buf record = some pos) :
    kept buf posauthority type record = true := by
  unfold kept
  rw [if_neg soa, hpos, Option.any_some, if_neg a, if_neg aaaa]

theorem itemName_saves {buf type : Bytes} {posauthority record : Nat} {strings : List Bytes}
    (named : type = dnsTNs ∨ type = dnsTPtr) (h : itemName buf record = .ok strings) :
    Saves buf posauthority type record strings := by
  obtain ⟨pos, hpos, h⟩ := Loop.bind_eq_ok.mp h
  obtain ⟨⟨t2, stop⟩, hname, h⟩ := Loop.bind_eq_ok.mp h
  rw [orDie_eq_ok] at hpos hname
  cases Except.ok.inj h
  have others : type ≠ dnsTSoa ∧ type ≠ dnsTA ∧ type ≠ dnsTAaaa := by
    rcases named with rfl | rfl <;> decide
  unfold Saves
  rw [if_pos (kept_all others.1 others.2.1 others.2.2 hpos)]
  refine ⟨[.name t2], ?_, ?_⟩
  · unfold rdataAt
    rw [hpos]
    simp only [if_pos named, hname]
    rfl
  · unfold Cached
    rw [if_pos named]
    exact ⟨t2, dnsPacketGetname_valid hname, rfl, List.append_nil _⟩

theorem itemMx_saves {buf : Bytes} {posauthority record : Nat} {strings : List Bytes}
    (h : itemMx buf record = .ok strings) : Saves buf posauthority dnsTMx record strings := by
  obtain ⟨pos, hpos, h⟩ := Loop.bind_eq_ok.mp h
  obtain ⟨⟨misc, pos₂⟩, hcopy, h⟩ := Loop.bind_eq_ok.mp h
  obtain ⟨⟨t2, stop⟩, hname, h⟩ := Loop.bind_eq_ok.mp h
  rw [orDie_eq_ok] at hpos hcopy hname
  cases Except.ok.inj h
  unfold Saves
  rw [if_pos (kept_all (by decide) (by decide) (by decide) hpos)]
  refine ⟨[.octets misc, .name t2], ?_, misc, t2, (dnsPacketCopy_eq_some.mp hcopy).2.1,
    dnsPacketGetname_valid hname, rfl, ?_⟩
  · unfold rdataAt
    rw [hpos]
    simp only [hcopy, hname]
    rfl
  · simp only [List.flatten_cons, List.flatten_nil, List.append_nil]

theorem itemAddress_saves {ignoreip : List Bytes} {front buf type : Bytes}
    {size posauthority record : Nat} {strings : List Bytes}
    (address : type = dnsTA ∧ size = 4 ∨ type = dnsTAaaa ∧ size = 16)
    (h : itemAddress ignoreip front size buf record = .ok strings) :
    Saves buf posauthority type record strings := by
  obtain ⟨pos, hpos, h⟩ := Loop.bind_eq_ok.mp h
  obtain ⟨⟨header, pos₂⟩, hheader, h⟩ := Loop.bind_eq_ok.mp h
  rw [orDie_eq_ok] at hpos hheader
  obtain ⟨rfl, datalen, _⟩ := datalenAt_of_copy hheader
  replace h : (if (rrHeader header).datalen ≠ size then .ok [] else
    orDie (dnsPacketCopy buf (pos + 10) size) >>= fun (address, _) =>
      if ignoreip.any fun ip => decide (ip = front ++ address) then .error .nxdomain
      else .ok [address]) = .ok strings := h
  rw [datalen] at h
  have isKept : kept buf posauthority type record = decide (datalenAt buf pos = size) := by
    unfold kept
    rcases address with ⟨rfl, rfl⟩ | ⟨rfl, rfl⟩
    · rw [if_neg (by decide), hpos, Option.any_some, if_pos rfl]
    · rw [if_neg (by decide), hpos, Option.any_some, if_neg (by decide), if_pos rfl]
  unfold Saves
  rw [isKept]
  by_cases fits : datalenAt buf pos = size
  · rw [if_neg (not_not_intro fits)] at h
    obtain ⟨⟨s, stop⟩, hcopy, h⟩ := Loop.bind_eq_ok.mp h
    rw [orDie_eq_ok] at hcopy
    replace h : (if ignoreip.any fun ip => decide (ip = front ++ s) then Except.error Quit.nxdomain
      else .ok [s]) = .ok strings := h
    split at h
    · cases h
    · cases h
      rw [if_pos (decide_eq_true fits)]
      have whole := (dnsPacketCopy_eq_some.mp hcopy).2.1
      refine ⟨[.octets s], ?_, ?_⟩
      · unfold rdataAt
        rw [hpos]
        rcases address with ⟨rfl, rfl⟩ | ⟨rfl, rfl⟩
        · simp only [fits, hcopy]
          rfl
        · simp only [fits, hcopy]
          rfl
      · rw [List.flatten_cons, List.flatten_nil, List.append_nil]
        rcases address with ⟨rfl, rfl⟩ | ⟨rfl, rfl⟩
        · exact ⟨whole, rfl⟩
        · exact ⟨whole, rfl⟩
  · rw [if_pos fits] at h
    cases h
    rw [if_neg fun kept => fits (of_decide_eq_true kept)]

theorem itemOther_saves {buf type : Bytes} {posauthority record : Nat} {strings : List Bytes}
    (plain : type ∉ blockTypes) (h : itemOther buf record = .ok strings) :
    Saves buf posauthority type record strings := by
  obtain ⟨pos, hpos, h⟩ := Loop.bind_eq_ok.mp h
  obtain ⟨⟨header, pos₂⟩, hheader, h⟩ := Loop.bind_eq_ok.mp h
  rw [orDie_eq_ok] at hpos hheader
  obtain ⟨rfl, datalen, ten⟩ := datalenAt_of_copy hheader
  replace h : (if (rrHeader header).datalen > buf.length - (pos + 10) then .error Quit.die else
    .ok [(header.drop 8).take 2, (buf.drop (pos + 10)).take (rrHeader header).datalen]) =
      Except.ok strings := h
  split at h
  · cases h
  · rename_i inside
    cases h
    have names := plain
    simp only [blockTypes, List.mem_cons, List.not_mem_nil, or_false, not_or] at names
    obtain ⟨_, _, _, ns, ptr, a, mx, aaaa, soa⟩ := names
    have whole : ((buf.drop (pos + 10)).take (datalenAt buf pos)).length = datalenAt buf pos := by
      rw [List.length_take, List.length_drop]
      omega
    have two : ((header.drop 8).take 2).length = 2 := by
      rw [List.length_take, List.length_drop]
      omega
    obtain ⟨hi, lo, field⟩ := List.length_eq_two.mp two
    have given : datalenAt buf pos = unbe [hi, lo] := by
      rw [← datalen, ← field]
      rfl
    have lengthField : (header.drop 8).take 2 = be16 (datalenAt buf pos) := by
      rw [given, be16_unbe, field]
    have short : datalenAt buf pos < 65536 := by
      have := hi.toNat_lt
      have := lo.toNat_lt
      rw [given, unbe_pair]
      omega
    unfold Saves
    rw [if_pos (kept_all soa a aaaa hpos)]
    refine ⟨[.octets ((buf.drop (pos + 10)).take (datalenAt buf pos))], ?_, ?_⟩
    · unfold rdataAt
      have hcopy := dnsPacketCopy_of_field (List.take_prefix (datalenAt buf pos) (buf.drop (pos + 10)))
      rw [whole] at hcopy
      rw [hpos]
      simp only [ns, ptr, mx, soa, or_self, if_false, hcopy]
      rfl
    · unfold Cached
      rw [if_neg (not_or.mpr ⟨ns, ptr⟩), if_neg mx, if_neg soa, if_neg a, if_neg aaaa]
      refine ⟨_, by rwa [whole], rfl, ?_⟩
      rw [whole, datalen, lengthField]
      simp only [List.flatten_cons, List.flatten_nil, List.append_nil]

theorem item_saves {conf : Conf} {buf type : Bytes} {posauthority record : Nat}
    {strings : List Bytes} (any : type ≠ dnsTAny) (axfr : type ≠ dnsTAxfr) (cname : type ≠ dnsTCname)
    (h : item conf buf posauthority type record = .ok strings) :
    Saves buf posauthority type record strings := by
  unfold item at h
  by_cases soa : type = dnsTSoa
  · rw [if_pos soa] at h
    exact soa ▸ itemSoa_saves h
  rw [if_neg soa] at h
  by_cases ptr : type = dnsTPtr
  · rw [if_pos ptr] at h
    exact itemName_saves (.inr ptr) h
  rw [if_neg ptr] at h
  by_cases ns : type = dnsTNs
  · rw [if_pos ns] at h
    exact itemName_saves (.inl ns) h
  rw [if_neg ns] at h
  by_cases mx : type = dnsTMx
  · rw [if_pos mx] at h
    exact mx ▸ itemMx_saves h
  rw [if_neg mx] at h
  by_cases a : type = dnsTA
  · rw [if_pos a] at h
    exact itemAddress_saves (.inl ⟨a, rfl⟩) h
  rw [if_neg a] at h
  by_cases aaaa : type = dnsTAaaa
  · rw [if_pos aaaa] at h
    exact itemAddress_saves (.inr ⟨aaaa, rfl⟩) h
  rw [if_neg aaaa] at h
  refine itemOther_saves ?_ h
  simp only [blockTypes, List.mem_cons, List.not_mem_nil, or_false, not_or]
  exact ⟨any, axfr, cname, ns, ptr, a, mx, aaaa, soa⟩

theorem foldl_saveData {strings : List Bytes} {save : Save} {s : Bytes}
    (h : strings.foldl (fun save s => saveData s save) save = some s) :
    ∃ s₀, save = some s₀ ∧ s = s₀ ++ strings.flatten := by
  induction strings generalizing save with
  | nil => exact ⟨s, h, (List.append_nil s).symm⟩
  | cons x strings ih =>
    obtain ⟨s₁, hsave, rfl⟩ := ih h
    replace hsave : saveData x save = some s₁ := hsave
    cases save with
    | none => cases hsave
    | some s₀ =>
      replace hsave : (if x.length > 8192 - s₀.length then none else some (s₀ ++ x)) = some s₁ :=
        hsave
      split at hsave
      · cases hsave
      · cases hsave
        exact ⟨s₀, rfl, by rw [List.flatten_cons, List.append_assoc]⟩

/-- A save that has not run over holds what every record has added. -/
theorem saveAll_strings {item : Nat → Except Quit (List Bytes)} {records : List Nat} {save : Save}
    {s : Bytes} (h : saveAll item records save = .ok (some s)) :
    ∃ s₀ added, save = some s₀ ∧
      List.Forall₂ (fun record strings => item record = .ok strings) records added ∧
      s = s₀ ++ added.flatten.flatten := by
  induction records generalizing save with
  | nil => exact ⟨s, [], Except.ok.inj h, .nil, (List.append_nil s).symm⟩
  | cons record records ih =>
    unfold saveAll at h
    split at h
    · cases h
    · rename_i strings hitem
      obtain ⟨s₁, added, hsave, items, rfl⟩ := ih h
      obtain ⟨s₀, rfl, rfl⟩ := foldl_saveData hsave
      refine ⟨s₀, strings :: added, rfl, .cons hitem items, ?_⟩
      rw [List.flatten_cons, List.flatten_append, List.append_assoc]

/-- The records of a set that are saved, and the forms of their data. -/
theorem saves_forms {buf type : Bytes} {posauthority : Nat} {records : List Nat}
    {added : List (List Bytes)} (saves : List.Forall₂ (Saves buf posauthority type) records added) :
    ∃ rdatas strings,
      List.Forall₂ (fun record parts => rdataAt buf type record = some parts)
        (records.filter (kept buf posauthority type)) rdatas ∧
      List.Forall₂ (Cached type) rdatas strings ∧ (∀ parts ∈ rdatas, ∃ s, Cached type parts s) ∧
      added.flatten.flatten = strings.flatten := by
  induction saves with
  | nil => exact ⟨[], [], .nil, .nil, fun parts mem => absurd mem List.not_mem_nil, rfl⟩
  | @cons record strings₁ records added first _ ih =>
    obtain ⟨rdatas, strings, reads, forms, all, same⟩ := ih
    unfold Saves at first
    split at first
    · rename_i isKept
      obtain ⟨parts, read, form⟩ := first
      refine ⟨parts :: rdatas, strings₁.flatten :: strings, ?_, .cons form forms, ?_, ?_⟩
      · rw [List.filter_cons_of_pos isKept]
        exact .cons read reads
      · intro parts' mem
        rcases List.mem_cons.mp mem with rfl | mem
        · exact ⟨_, form⟩
        · exact all parts' mem
      · rw [List.flatten_cons, List.flatten_append, same, List.flatten_cons]
    · rename_i isNotKept
      subst first
      refine ⟨rdatas, strings, ?_, forms, all, same⟩
      rw [List.filter_cons_of_neg isNotKept]
      exact reads

/-- **What a set is saved as**, and what that reads back as. -/
theorem saveSet_reads {conf : Conf} {buf : Bytes} {posauthority : Nat} {g : RrSet} {call : CacheSet}
    (cname : g.type ≠ dnsTCname) (h : saveSet conf buf posauthority g = .ok (some call)) :
    g.type ≠ dnsTAny ∧ g.type ≠ dnsTAxfr ∧ ∃ rdatas,
      List.Forall₂ (fun record parts => rdataAt buf g.type record = some parts)
        (g.records.filter (kept buf posauthority g.type)) rdatas ∧
      (∀ parts ∈ rdatas, ∃ s, Cached g.type parts s) ∧ decode g.type call.data = some rdatas := by
  unfold saveSet at h
  by_cases any : g.type = dnsTAny
  · rw [if_pos any] at h
    cases h
  rw [if_neg any] at h
  by_cases axfr : g.type = dnsTAxfr
  · rw [if_pos axfr] at h
    cases h
  rw [if_neg axfr, if_neg cname] at h
  refine ⟨any, axfr, ?_⟩
  obtain ⟨save, hsave, h⟩ := Loop.bind_eq_ok.mp h
  split at h
  · cases h
  · cases save with
    | none => cases Except.ok.inj h
    | some s =>
      obtain ⟨_, data⟩ := cachegeneric_key (Except.ok.inj h)
      obtain ⟨s₀, added, start, items, rfl⟩ := saveAll_strings hsave
      cases start
      obtain ⟨rdatas, strings, reads, forms, all, same⟩ :=
        saves_forms (items.imp fun _ _ hitem => item_saves any axfr cname hitem)
      refine ⟨rdatas, reads, all, ?_⟩
      rw [data, List.nil_append, same]
      exact decode_reads forms

end TinyDnssec.Dnscache
