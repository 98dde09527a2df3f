import TinyDnssec.Data.Database

/-!
# Finding records

`find` of `tdlookup.c`. The records stored under a name are looked at one after another; those of
another location, those that are not of the kind asked for (plain or wildcard) and those outside
their time window are passed over, and the fixed fields of the next one are read.

Calls of `find` for one name come in a loop between one `cdb_findstart` and the next, so
`Env.find` lists what the calls of such a loop answer: a record, or -1.
-/

namespace TinyDnssec.Lookup

open Octets Loop

/-- What a lookup depends on: the database, the client and the time, the settings of the server,
and what is taken as given. -/
structure Env where
  db : Data.Database
  clientloc : Bytes
  /-- the label of the current second -/
  cur : Nat
  doDnssec : Bool
  maxResponseLen : Nat
  /-- the words `dns_random` draws, in order -/
  random : Nat → Nat
  sha1 : Bytes → Bytes
  /-- what the buffer `data` holds behind a record -/
  stale : Bytes → Bytes

/-- A server of this database, for a client outside all locations. -/
def Env.of (db : Data.Database) (doDnssec : Bool) : Env where
  db := db
  clientloc := [0, 0]
  cur := 4611686018427387914
  doDnssec := doDnssec
  maxResponseLen := 512
  random := fun _ => 0
  sha1 := fun _ => List.replicate 20 0
  stale := fun _ => []

/-- The record `find` stopped at: the static variables `type`, `ttl`, `data` and `dpos`. `dlen` is
the length of `data`. -/
structure Found where
  type : Bytes
  ttl : Nat
  data : Bytes
  dpos : Nat

/-- The data of the record, behind its fixed fields. -/
def Found.rdata (f : Found) : Bytes := f.data.drop f.dpos

/-- The ttl of a record with a timestamp, if it is shown: until the cutoff where the ttl is 0, with
the time left as its ttl, and from the cutoff on otherwise. -/
def Env.liveTtl (env : Env) (ttl : Nat) (ttd : Bytes) : Option Nat :=
  let cutoff := unbe ttd
  if ttd = [0, 0, 0, 0, 0, 0, 0, 0] then some ttl
  else if ttl = 0 then
    if cutoff < env.cur then none
    else some (min 3600 (max 2 (cutoff - env.cur)))
  else if cutoff < env.cur then some ttl
  else none

/-- One turn of the loop in `find`: -1 is an error, `continue` is `none`. -/
def Env.look (env : Env) (flagwild : Bool) (data : Bytes) : Except Unit (Option Found) :=
  let copy (pos len : Nat) : Except Unit (Bytes × Nat) :=
    match dnsPacketCopy data pos len with
    | none => .error ()
    | some field => .ok field
  if data.length > 32767 then .error ()
  else do
    let (type, dpos) ← copy 0 2
    let (field, dpos) ← copy dpos 1
    let ch := field.headD 0
    let (recordloc, dpos) ←
      if Data.located ch then copy dpos 2 else .ok (env.clientloc, dpos)
    if recordloc ≠ env.clientloc then .ok none
    else
      let ch := if Data.located ch then ch - 1 else ch
      if flagwild ≠ decide (ch = 42) then .ok none
      else do
        let (ttlstr, dpos) ← copy dpos 4
        let (ttd, dpos) ← copy dpos 8
        .ok ((env.liveTtl (unbe ttlstr) ttd).map fun ttl => ⟨type, ttl, data, dpos⟩)

/-- The records `cdb_findnext` goes through: those stored under a name, in their order. -/
def Env.stored (env : Env) (d : Name) : List Data.CdbRecord :=
  env.db.records.filter fun record => record.key = wire d

/-- What one call of `find` after another answers, `none` for -1. -/
def Env.find (env : Env) (d : Name) (flagwild : Bool) : List (Option Found) :=
  (env.stored d).filterMap fun record =>
    match env.look flagwild record.data with
    | .error () => some none
    | .ok none => none
    | .ok (some found) => some (some found)

/-- The records a loop around `find` gets to see. -/
def Env.visible (env : Env) (d : Name) (flagwild : Bool) : List Found :=
  (env.find d flagwild).reduceOption

/-! ## What `find` answers -/

/-- The record is a plain or a wildcard one, of this client's location. -/
def Env.matching (env : Env) (flagwild : Bool) (ch : UInt8) (loc : Bytes) : Bool :=
  (!Data.located ch || decide (loc = env.clientloc)) &&
    decide (flagwild = decide ((if Data.located ch then ch - 1 else ch) = 42))

/-- **What `find` makes of a complete record**: it is too long, it is passed over, or its fields
are read. -/
theorem look_complete (env : Env) (flagwild : Bool) (t₀ t₁ : UInt8) {ch : UInt8}
    {loc ttlstr ttd : Bytes} (rdata : Bytes)
    (hloc : loc.length = if Data.located ch then 2 else 0) (four : ttlstr.length = 4)
    (eight : ttd.length = 8) :
    env.look flagwild (t₀ :: t₁ :: ch :: (loc ++ (ttlstr ++ (ttd ++ rdata)))) =
      if (t₀ :: t₁ :: ch :: (loc ++ (ttlstr ++ (ttd ++ rdata)))).length > 32767 then .error ()
      else .ok (if env.matching flagwild ch loc then
          (env.liveTtl (unbe ttlstr) ttd).map fun ttl =>
            ⟨[t₀, t₁], ttl, t₀ :: t₁ :: ch :: (loc ++ (ttlstr ++ (ttd ++ rdata))), loc.length + 15⟩
        else none) := by
  obtain ⟨hlocAt, hrest⟩ := @prefix_of_append
    (t₀ :: t₁ :: ch :: (loc ++ (ttlstr ++ (ttd ++ rdata)))) loc (ttlstr ++ (ttd ++ rdata)) 3
    (List.prefix_refl _)
  obtain ⟨httlAt, hrest⟩ := prefix_of_append hrest
  obtain ⟨httdAt, _⟩ := prefix_of_append hrest
  have hcopyLoc := dnsPacketCopy_of_field hlocAt
  have hcopyTtl := dnsPacketCopy_of_field httlAt
  have hcopyTtd := dnsPacketCopy_of_field httdAt
  rw [four] at hcopyTtl hcopyTtd
  rw [eight] at hcopyTtd
  generalize hdata : t₀ :: t₁ :: ch :: (loc ++ (ttlstr ++ (ttd ++ rdata))) = data at *
  have hcopyType : dnsPacketCopy data 0 2 = some ([t₀, t₁], 2) := by rw [← hdata]; rfl
  have hcopyCh : dnsPacketCopy data 2 1 = some ([ch], 3) := by rw [← hdata]; rfl
  unfold Env.look Env.matching
  by_cases hlong : data.length > 32767
  · rw [if_pos hlong, if_pos hlong]
  · rw [if_neg hlong, if_neg hlong]
    cases hl : Data.located ch with
    | true =>
      rw [hl, if_pos rfl] at hloc
      rw [hloc] at hcopyLoc hcopyTtl hcopyTtd
      simp only [hcopyType, hcopyCh, List.headD_cons, hl, hcopyLoc, hcopyTtl, hcopyTtd, hloc,
        if_true, bind, Except.bind, Bool.not_true, Bool.false_or]
      by_cases hclient : loc = env.clientloc
      · by_cases hwild : flagwild = decide (ch - 1 = 42)
        · simp only [hclient, hwild, ne_eq, not_true_eq_false, if_false, decide_true, Bool.and_self,
            if_true]
        · simp only [hclient, hwild, ne_eq, not_true_eq_false, if_false, decide_true, decide_false,
            Bool.and_false, Bool.false_eq_true, not_false_eq_true, if_true]
      · simp only [hclient, ne_eq, not_false_eq_true, if_true, decide_false, Bool.false_and,
          Bool.false_eq_true, if_false]
    | false =>
      rw [hl, if_neg Bool.false_ne_true] at hloc
      rw [hloc] at hcopyTtl hcopyTtd
      simp only [hcopyType, hcopyCh, List.headD_cons, hl, hcopyTtl, hcopyTtd, hloc, bind,
        Except.bind, Bool.not_false, Bool.true_or, Bool.true_and, Bool.false_eq_true, if_false,
        ne_eq, not_true_eq_false]
      by_cases hwild : flagwild = decide (ch = 42)
      · simp only [hwild, not_true_eq_false, if_false, decide_true, if_true]
      · simp only [hwild, not_false_eq_true, if_true, decide_false, Bool.false_eq_true, if_false]

/-- A field that `find` reads. -/
def readField (data : Bytes) (pos len : Nat) : Except Unit (Bytes × Nat) :=
  match dnsPacketCopy data pos len with
  | none => .error ()
  | some field => .ok field

theorem readField_eq_ok {data : Bytes} {pos len : Nat} {field : Bytes × Nat}
    (h : readField data pos len = .ok field) :
    field.2 = pos + len ∧ field.1 = (data.drop pos).take len := by
  unfold readField at h
  cases hcopy : dnsPacketCopy data pos len with
  | none =>
    rw [hcopy] at h
    cases h
  | some read =>
    rw [hcopy] at h
    cases h
    obtain ⟨hstop, hlen, hat⟩ := dnsPacketCopy_eq_some.mp hcopy
    refine ⟨hstop, ?_⟩
    rw [List.prefix_iff_eq_take.mp hat, hlen]

/-- What `find` does behind the location. -/
theorem look_tail {env : Env} {mark : UInt8} {flagwild : Bool} {type data loc : Bytes} {pos : Nat}
    {f : Found}
    (h : (if loc ≠ env.clientloc then Except.ok none
      else if flagwild ≠ decide (mark = 42) then .ok none
      else do
        let ttlstr ← readField data pos 4
        let ttd ← readField data ttlstr.2 8
        .ok ((env.liveTtl (unbe ttlstr.1) ttd.1).map fun ttl => (⟨type, ttl, data, ttd.2⟩ : Found))) =
      .ok (some f)) :
    f.data = data ∧ f.type = type ∧ f.dpos = pos + 12 := by
  split at h
  · cases h
  · split at h
    · cases h
    · obtain ⟨⟨ttlstr, p₁⟩, httl, h⟩ := bind_eq_ok.mp h
      obtain ⟨⟨ttd, p₂⟩, httd, h⟩ := bind_eq_ok.mp h
      obtain ⟨rfl, _⟩ := readField_eq_ok httl
      obtain ⟨rfl, _⟩ := readField_eq_ok httd
      obtain ⟨ttl, _, rfl⟩ := Option.map_eq_some_iff.mp (Except.ok.inj h)
      exact ⟨rfl, rfl, rfl⟩

/-- Where `find` stops in a record. -/
theorem look_some {env : Env} {flagwild : Bool} {data : Bytes} {f : Found}
    (h : env.look flagwild data = .ok (some f)) :
    f.data = data ∧ f.type = data.take 2 ∧
      f.dpos = if Data.located (data.getD 2 0) then 17 else 15 := by
  unfold Env.look at h
  simp only [] at h
  split at h
  · cases h
  · obtain ⟨⟨type, p₁⟩, htype, h⟩ := bind_eq_ok.mp h
    obtain ⟨⟨field, p₂⟩, hfield, h⟩ := bind_eq_ok.mp h
    obtain ⟨rfl, rfl⟩ := readField_eq_ok htype
    obtain ⟨rfl, rfl⟩ := readField_eq_ok hfield
    have hmark : ((data.drop 2).take 1).headD 0 = data.getD 2 0 := by
      rw [List.getD_eq_getElem?_getD, ← List.head?_drop]
      cases data.drop 2 <;> rfl
    split at h
    · rename_i hl
      obtain ⟨⟨loc, p₃⟩, hloc, h⟩ := bind_eq_ok.mp h
      obtain ⟨rfl, rfl⟩ := readField_eq_ok hloc
      obtain ⟨hdata, htwo, hdpos⟩ := @look_tail env (data.getD 2 0 - 1) flagwild _ data _ 5 f
        (hmark ▸ h)
      exact ⟨hdata, htwo, by rw [hdpos, ← hmark, if_pos hl]⟩
    · rename_i hl
      obtain ⟨_, hloc, h⟩ := bind_eq_ok.mp h
      cases hloc
      obtain ⟨hdata, htwo, hdpos⟩ := @look_tail env (data.getD 2 0) flagwild _ data _ 3 f
        (hmark ▸ h)
      exact ⟨hdata, htwo, by rw [hdpos, ← hmark, if_neg hl]⟩

/-- The parts of a complete record. -/
theorem exists_parts_of_isComplete {data : Bytes} (h : Data.isComplete data = true) :
    ∃ t₀ t₁ ch loc ttlstr ttd rdata, data = t₀ :: t₁ :: ch :: (loc ++ (ttlstr ++ (ttd ++ rdata))) ∧
      loc.length = (if Data.located ch then 2 else 0) ∧ ttlstr.length = 4 ∧ ttd.length = 8 := by
  unfold Data.isComplete at h
  split at h
  · rename_i t₀ t₁ ch rest
    have hlen := of_decide_eq_true h
    generalize hn : (if Data.located ch then 2 else 0) = n
    have hroom : n + 12 ≤ rest.length := by
      rw [← hn]
      split at hlen
      · rename_i hl
        rw [if_pos hl]
        exact hlen
      · rename_i hl
        rw [if_neg hl]
        exact hlen
    refine ⟨t₀, t₁, ch, rest.take n, (rest.drop n).take 4, ((rest.drop n).drop 4).take 8,
      ((rest.drop n).drop 4).drop 8, ?_, ?_, ?_, ?_⟩
    · rw [List.take_append_drop, List.take_append_drop, List.take_append_drop]
    · rw [List.length_take]
      omega
    · rw [List.length_take, List.length_drop]
      omega
    · rw [List.length_take, List.length_drop, List.length_drop]
      omega
  · cases h

section find

variable {env : Env} {d : Name}

theorem stored_complete (labels : ∀ l ∈ d, ValidLabel l) {record : Data.CdbRecord} (h : record ∈ env.stored d) :
    Data.isComplete record.data = true := by
  obtain ⟨hmem, hkey⟩ := List.mem_filter.mp h
  have hkey : record.key = wire d := of_decide_eq_true hkey
  have hformed := env.db.wellFormed record hmem
  unfold Data.CdbRecord.wellFormed at hformed
  rw [hkey, Data.isLocation_wire labels, Bool.false_or, Bool.and_eq_true] at hformed
  exact hformed.2

/-- A name that records are stored under fits its buffer. -/
theorem stored_valid (labels : ∀ l ∈ d, ValidLabel l) {record : Data.CdbRecord}
    (h : record ∈ env.stored d) : Valid d := by
  obtain ⟨hmem, hkey⟩ := List.mem_filter.mp h
  have hkey : record.key = wire d := of_decide_eq_true hkey
  have hformed := env.db.wellFormed record hmem
  unfold Data.CdbRecord.wellFormed at hformed
  rw [hkey, Data.isLocation_wire labels, Bool.false_or, Bool.and_eq_true, Data.isName_iff] at hformed
  obtain ⟨⟨n, hn, hwire⟩, _⟩ := hformed
  have hsame := (@wire_append_inj d n labels hn.labels [] [] (congrArg (· ++ []) hwire)).1
  rw [hsame]
  exact hn

/-- A record is an error when it is too long for the buffer, and only then. -/
theorem look_stored (labels : ∀ l ∈ d, ValidLabel l) {record : Data.CdbRecord} (h : record ∈ env.stored d)
    (flagwild : Bool) :
    (32767 < record.data.length ∧ env.look flagwild record.data = .error ()) ∨
      (record.data.length ≤ 32767 ∧ ∃ found, env.look flagwild record.data = .ok found) := by
  obtain ⟨t₀, t₁, ch, loc, ttlstr, ttd, rdata, hdata, hloc, four, eight⟩ :=
    exists_parts_of_isComplete (stored_complete labels h)
  have hlook := look_complete env flagwild t₀ t₁ rdata hloc four eight
  rw [← hdata] at hlook
  rw [hlook]
  by_cases hlong : record.data.length > 32767
  · exact .inl ⟨hlong, if_pos hlong⟩
  · exact .inr ⟨Nat.not_lt.mp hlong, _, if_neg hlong⟩

/-- **A loop meets -1 for a name exactly when a record under it is too long**, whichever kind of
record is asked for. -/
theorem none_mem_find (labels : ∀ l ∈ d, ValidLabel l) (flagwild : Bool) :
    none ∈ env.find d flagwild ↔ ∃ record ∈ env.stored d, 32767 < record.data.length := by
  unfold Env.find
  rw [List.mem_filterMap]
  constructor
  · rintro ⟨record, hmem, hnone⟩
    refine ⟨record, hmem, ?_⟩
    rcases look_stored labels hmem flagwild with ⟨hlong, _⟩ | ⟨_, found, hlook⟩
    · exact hlong
    · rw [hlook] at hnone
      cases found <;> cases hnone
  · rintro ⟨record, hmem, hlong⟩
    refine ⟨record, hmem, ?_⟩
    rcases look_stored labels hmem flagwild with ⟨_, hlook⟩ | ⟨hshort, _⟩
    · rw [hlook]
    · exact absurd hlong (Nat.not_lt.mpr hshort)

/-- What a record that was found looks like. -/
structure Found.Read (f : Found) : Prop where
  typeOctets : f.type.length = 2
  behind : f.dpos ≤ f.data.length
  short : f.data.length ≤ 32767

theorem some_mem_find {flagwild : Bool} {f : Found} :
    some f ∈ env.find d flagwild ↔
      ∃ record ∈ env.stored d, env.look flagwild record.data = .ok (some f) := by
  unfold Env.find
  rw [List.mem_filterMap]
  refine exists_congr fun record => and_congr_right fun _ => ?_
  constructor
  · intro h
    split at h
    · cases h
    · cases h
    · rename_i hlook
      cases h
      exact hlook
  · intro h
    rw [h]

theorem found_read {flagwild : Bool} {f : Found} (labels : ∀ l ∈ d, ValidLabel l)
    (h : some f ∈ env.find d flagwild) : f.Read := by
  obtain ⟨record, hmem, hsome⟩ := some_mem_find.mp h
  obtain ⟨t₀, t₁, ch, loc, ttlstr, ttd, rdata, hdata, hloc, four, eight⟩ :=
    exists_parts_of_isComplete (stored_complete labels hmem)
  have hlook := look_complete env flagwild t₀ t₁ rdata hloc four eight
  rw [hdata, hlook] at hsome
  split at hsome
  · cases hsome
  · rename_i hshort
    split at hsome
    · obtain ⟨ttl, _, rfl⟩ := Option.map_eq_some_iff.mp (Except.ok.inj hsome)
      refine ⟨rfl, ?_, Nat.not_lt.mp hshort⟩
      simp only [List.length_cons, List.length_append, four, eight]
      omega
    · cases hsome

/-- Where `find` answers anything, the name fits its buffer. -/
theorem valid_of_find {flagwild : Bool} (labels : ∀ l ∈ d, ValidLabel l)
    (h : env.find d flagwild ≠ []) : Valid d := by
  obtain ⟨x, hx⟩ := List.exists_mem_of_ne_nil _ h
  unfold Env.find at hx
  obtain ⟨record, hmem, _⟩ := List.mem_filterMap.mp hx
  exact stored_valid labels hmem

/-- Where no call of `find` answers -1, the calls answer the visible records. -/
theorem visible_eq {flagwild : Bool} {fs : List Found} (h : env.find d flagwild = fs.map some) :
    env.visible d flagwild = fs := by
  unfold Env.visible List.reduceOption
  rw [h, List.filterMap_map]
  exact List.filterMap_some

theorem mem_visible {flagwild : Bool} {f : Found} :
    f ∈ env.visible d flagwild ↔ some f ∈ env.find d flagwild := by
  unfold Env.visible
  exact List.reduceOption_mem_iff

end find

end TinyDnssec.Lookup
