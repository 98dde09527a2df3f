import TinyDnssec.Lookup.Find

/-!
# Zone transfers

`axfrcheck`, `build` and `doaxfr` of `axfrdns.c`. A transfer is the SOA record of the zone, then a
walk over the file `data.cdb` from its first record to its last, and the SOA record again. The
format of the records is read by `build`, written apart from the `find` that serves queries
(`Lookup.Find`); the file is read octet by octet, with its own count of where it stands.

The messages that were printed before the program ends early stay printed, so a transfer is the
list of them and how it ended.

How a client takes the messages in is not said here, nor that it gets them: a write that fails ends the
program.
-/

namespace TinyDnssec.Axfrdns

open Octets Loop Data Lookup

/-- How a transfer ends early. -/
inductive Die where
  | nomem
  | disallowed
  | cdbread
  | cdbformat
  | outside
deriving DecidableEq

/-! ## `build` -/

/-- A mark that `build` expects a location behind. -/
def marked (misc : UInt8) : Bool := decide (misc = 62) || decide (misc = 43)

def copy (data : Bytes) (dpos len : Nat) : Except Die (Bytes × Nat) :=
  match dnsPacketCopy data dpos len with
  | none => .error .cdbread
  | some field => .ok field

def doname (data : Bytes) (dpos : Nat) : Except Die (Bytes × Nat) :=
  match dnsPacketGetname data dpos with
  | none => .error .cdbread
  | some (d, dpos) => .ok (wire d, dpos)

/-- The ttl that is sent, if the record is shown at this time. -/
def shownTtl (cur : Nat) (ttl ttd : Bytes) : Option Bytes :=
  let cutoff := unbe ttd
  if ttd = [0, 0, 0, 0, 0, 0, 0, 0] then some ttl
  else if ttl = [0, 0, 0, 0] then if cutoff < cur then none else some (be32 2)
  else if ¬ cutoff < cur then none
  else some ttl

/-- The data of the record, its names read and written again. -/
def buildRdata (type data : Bytes) (dpos : Nat) : Except Die Bytes :=
  if type = dnsTSoa then do
    let (mname, dpos) ← doname data dpos
    let (rname, dpos) ← doname data dpos
    let (misc, _) ← copy data dpos 20
    .ok (mname ++ (rname ++ misc))
  else if type = dnsTNs ∨ type = dnsTPtr ∨ type = dnsTCname then do
    let (d, _) ← doname data dpos
    .ok d
  else if type = dnsTMx then do
    let (misc, dpos) ← copy data dpos 2
    let (d, _) ← doname data dpos
    .ok (misc ++ d)
  else .ok (data.drop dpos)

/-- A message with one answer and no question. -/
def message (id : Bytes) (owner : Name) (type ttl rdata : Bytes) : Bytes :=
  id ++ ([132, 0, 0, 0, 0, 1, 0, 0, 0, 0] ++ (wire owner ++ (type ++ (dnsCIn ++ (ttl ++
    (be16 rdata.length ++ rdata))))))

/-- `build`, for the record in `data` under the key `q`. -/
def build (env : Lookup.Env) (data : Bytes) (q : Name) (flagsoa : Bool) (id : Bytes) :
    Except Die (Option Bytes) := do
  let (type, dpos) ← copy data 0 2
  if flagsoa ≠ decide (type = dnsTSoa) then .ok none
  else do
    let (field, dpos) ← copy data dpos 1
    let misc := field.headD 0
    let (recordloc, dpos) ←
      if marked misc then copy data dpos 2 else .ok (env.clientloc, dpos)
    if recordloc ≠ env.clientloc then .ok none
    else
      let misc := if marked misc then misc - 1 else misc
      if misc = 42 ∧ flagsoa then .ok none
      else do
        let (ttl, dpos) ← copy data dpos 4
        let (ttd, dpos) ← copy data dpos 8
        match shownTtl env.cur ttl ttd with
        | none => .ok none
        | some ttl => do
          let rdata ← buildRdata type data dpos
          let sa := message id (if misc = 42 then [42] :: q else q) type ttl rdata
          if sa.length > 65535 then .error .cdbformat else .ok (some sa)

/-! ## `doaxfr` -/

/-- `axfrcheck`: the zones between the slashes, one after another. -/
def allowed (q : Name) : List Bytes → Except Die Unit
  | [] => .error .disallowed
  | axfrok :: rest =>
    if axfrok = [] then allowed q rest
    else
      match dnsDomainFromdot axfrok with
      | none => .error .nomem
      | some d => if dnsDomainEqual q d then .ok () else allowed q rest

def axfrcheck (axfr : Option Bytes) (q : Name) : Except Die Unit :=
  match axfr with
  | none => .ok ()
  | some axfr => allowed q (split 47 axfr)

/-- The search for the SOA record, among what is stored under the zone. -/
def findSoa (env : Lookup.Env) (zone : Name) (id : Bytes) : List CdbRecord → Except Die Bytes
  | [] => .error .outside
  | record :: rest =>
    if record.data.length > 32767 then .error .cdbformat
    else
      match build env record.data zone true id with
      | .error why => .error why
      | .ok (some soa) => .ok soa
      | .ok none => findSoa env zone id rest

/-- `get`: so many octets of the file, and the rest of it. -/
def get (len : Nat) (file : Bytes) : Except Die (Bytes × Bytes) :=
  if file.length < len then .error .cdbformat else .ok (file.take len, file.drop len)

/-- What the walk does with a record. -/
def transfer (env : Lookup.Env) (zone : Name) (id : Bytes) (record : CdbRecord) :
    Except Die (Option Bytes) :=
  if record.key.length > 1 ∧ record.key.headD 0 = 0 then .ok none
  else if record.key.length < 1 then .error .cdbformat
  else
    match dnsPacketGetname record.key 0 with
    | none => .error .cdbformat
    | some (q, stop) =>
      if stop ≠ record.key.length then .error .cdbformat
      else if !dnsDomainSuffix q zone then .ok none
      else build env record.data q false id

/-- The next record of the file, of which `pos` octets have been read, and where it ends. -/
def nextRecord (eod pos : Nat) (file : Bytes) : Except Die (CdbRecord × Nat × Bytes) :=
  if eod - pos < 8 then .error .cdbformat
  else do
    let (num, file) ← get 4 file
    let klen := unle num
    let (num, file) ← get 4 file
    let dlen := unle num
    let pos := pos + 8
    if eod - pos < klen then .error .cdbformat
    else
      let pos := pos + klen
      if eod - pos < dlen then .error .cdbformat
      else
        let pos := pos + dlen
        if klen > 512 then .error .cdbformat
        else do
          let (key, file) ← get klen file
          if dlen > 32767 then .error .cdbformat
          else do
            let (data, file) ← get dlen file
            .ok (⟨key, data⟩, pos, file)

/-- The walk over the records: what is printed, and how it ends early. A record takes more than one
octet, so as many rounds as there are octets are enough. -/
def walk (env : Lookup.Env) (zone : Name) (id : Bytes) (eod : Nat) : Nat → Nat → Bytes →
    List Bytes × Option Die
  | 0, _, _ => ([], some .cdbformat)
  | rounds + 1, pos, file =>
    if pos < eod then
      match nextRecord eod pos file with
      | .error why => ([], some why)
      | .ok (record, pos, file) =>
        match transfer env zone id record with
        | .error why => ([], some why)
        | .ok none => walk env zone id eod rounds pos file
        | .ok (some sa) =>
          let (more, ended) := walk env zone id eod rounds pos file
          (sa :: more, ended)
    else ([], none)

/-- `doaxfr`: what is printed, and how it ends early. -/
def doaxfr (env : Lookup.Env) (file : Bytes) (axfr : Option Bytes) (zone : Name) (id : Bytes) :
    List Bytes × Option Die :=
  match axfrcheck axfr zone with
  | .error why => ([], some why)
  | .ok () =>
    match findSoa env zone id (env.stored zone) with
    | .error why => ([], some why)
    | .ok soa =>
      match get 2048 file with
      | .error why => ([soa], some why)
      | .ok (head, file) =>
        match walk env zone id (unle (head.take 4)) (file.length + 1) 2048 file with
        | (messages, some why) => (soa :: messages, some why)
        | (messages, none) => (soa :: messages ++ [soa], none)

/-! ## What `build` makes of a complete record -/

theorem copy_of_field {data field : Bytes} {dpos : Nat} (there : field <+: data.drop dpos) :
    copy data dpos field.length = .ok (field, dpos + field.length) := by
  unfold copy
  rw [dnsPacketCopy_of_field there]

theorem doname_of_wire {data : Bytes} {dpos : Nat} {d : Name} (valid : Valid d)
    (there : wire d <+: data.drop dpos) : doname data dpos = .ok (wire d, dpos + (span d + 1)) := by
  unfold doname
  rw [dnsPacketGetname_wire valid there]

/-- **`build` reads the fields of a complete record**, and prints it if it is shown. -/
theorem build_complete (env : Lookup.Env) (t₀ t₁ : UInt8) {ch : UInt8}
    {loc ttlstr ttd : Bytes} (rdata : Bytes)
    (hloc : loc.length = if marked ch then 2 else 0) (four : ttlstr.length = 4)
    (eight : ttd.length = 8) (q : Name) (flagsoa : Bool) (id : Bytes) :
    build env (t₀ :: t₁ :: ch :: (loc ++ (ttlstr ++ (ttd ++ rdata)))) q flagsoa id =
      if flagsoa ≠ decide ([t₀, t₁] = dnsTSoa) then .ok none
      else if marked ch = true ∧ loc ≠ env.clientloc then .ok none
      else if (if marked ch then ch - 1 else ch) = 42 ∧ flagsoa then .ok none
      else
        match shownTtl env.cur ttlstr ttd with
        | none => .ok none
        | some ttl =>
          let owner := if (if marked ch then ch - 1 else ch) = 42 then [42] :: q else q
          buildRdata [t₀, t₁] (t₀ :: t₁ :: ch :: (loc ++ (ttlstr ++ (ttd ++ rdata))))
            (loc.length + 15) >>= fun rdata =>
              if (message id owner [t₀, t₁] ttl rdata).length > 65535 then .error .cdbformat
              else .ok (some (message id owner [t₀, t₁] ttl rdata)) := by
  obtain ⟨hlocAt, hrest⟩ := @prefix_of_append
    (t₀ :: t₁ :: ch :: (loc ++ (ttlstr ++ (ttd ++ rdata)))) loc (ttlstr ++ (ttd ++ rdata)) 3
    (List.prefix_refl _)
  obtain ⟨httlAt, hrest⟩ := prefix_of_append hrest
  obtain ⟨httdAt, _⟩ := prefix_of_append hrest
  have hcopyLoc := copy_of_field hlocAt
  have hcopyTtl := copy_of_field httlAt
  have hcopyTtd := copy_of_field httdAt
  rw [four] at hcopyTtl hcopyTtd
  rw [eight] at hcopyTtd
  generalize hdata : t₀ :: t₁ :: ch :: (loc ++ (ttlstr ++ (ttd ++ rdata))) = data at *
  have hcopyType : copy data 0 2 = .ok ([t₀, t₁], 2) := by rw [← hdata]; rfl
  have hcopyCh : copy data 2 1 = .ok ([ch], 3) := by rw [← hdata]; rfl
  unfold build
  simp only [hcopyType, hcopyCh, List.headD_cons, bind, Except.bind]
  split
  · rfl
  · rcases Bool.eq_false_or_eq_true (marked ch) with hmarked | hmarked
    · rw [hmarked, if_pos rfl] at hloc
      rw [hloc] at hcopyLoc hcopyTtl hcopyTtd
      simp only [hmarked, hcopyLoc, hcopyTtl, hcopyTtd, hloc, if_true, true_and]
    · rw [hmarked, if_neg Bool.false_ne_true] at hloc
      rw [hloc] at hcopyTtl hcopyTtd
      simp only [hmarked, hcopyTtl, hcopyTtd, hloc, Bool.false_eq_true, if_false, false_and, ne_eq,
        not_true_eq_false]

/-! ## The two readers agree -/

/-- The names in the data of an SOA record are names. -/
def ReadableSoa (rdata : Bytes) : Prop :=
  ∃ mname rname numbers, Valid mname ∧ Valid rname ∧ numbers.length = 20 ∧
    rdata = wire mname ++ (wire rname ++ numbers)

/-- Data that fits its type is sent as it is. -/
theorem buildRdata_of_fits {type data rdata : Bytes} {dpos : Nat} (there : data.drop dpos = rdata)
    (fits : Fits type rdata) (readable : type = dnsTSoa → ReadableSoa rdata) :
    buildRdata type data dpos = .ok rdata := by
  have hat : rdata <+: data.drop dpos := there ▸ List.prefix_refl _
  unfold buildRdata
  split
  · rename_i hsoa
    obtain ⟨mname, rname, numbers, hm, hr, htwenty, rfl⟩ := readable hsoa
    obtain ⟨hmAt, hrest⟩ := prefix_of_append hat
    obtain ⟨hrAt, hnumbersAt⟩ := prefix_of_append hrest
    rw [wire_length] at hrAt hnumbersAt
    rw [wire_length] at hnumbersAt
    have hcopy := copy_of_field hnumbersAt
    rw [htwenty] at hcopy
    simp only [doname_of_wire hm hmAt, doname_of_wire hr hrAt, hcopy, bind, Except.bind]
  · split
    · rename_i hname
      have hname : type = dnsTNs ∨ type = dnsTPtr ∨ type = dnsTCname := hname
      obtain ⟨d, hd, rfl⟩ := fits.name hname
      simp only [doname_of_wire hd hat, bind, Except.bind]
    · split
      · rename_i hmx
        obtain ⟨dist, d, htwo, hd, rfl⟩ := fits.mx hmx
        obtain ⟨hdistAt, hdAt⟩ := prefix_of_append hat
        have hcopy := copy_of_field hdistAt
        rw [htwo] at hcopy hdAt
        simp only [hcopy, doname_of_wire hd hdAt, bind, Except.bind]
      · rw [there]

/-- The two readers agree on when a record is shown. -/
theorem shownTtl_iff (env : Lookup.Env) {ttl : Bytes} (four : ttl.length = 4) (ttd : Bytes) :
    (shownTtl env.cur ttl ttd = none ∧ env.liveTtl (unbe ttl) ttd = none) ∨
      ∃ t n, shownTtl env.cur ttl ttd = some t ∧ t.length = 4 ∧
        env.liveTtl (unbe ttl) ttd = some n := by
  have hzero : ttl = [0, 0, 0, 0] ↔ unbe ttl = 0 := by
    match ttl, four with
    | [a, b, c, d], _ =>
      constructor
      · intro h
        rw [h]
        rfl
      · intro h
        have hback := be32_unbe a b c d
        rw [h] at hback
        exact hback.symm
  unfold shownTtl Env.liveTtl
  simp only []
  split
  · exact .inr ⟨ttl, _, rfl, four, rfl⟩
  · by_cases httl : ttl = [0, 0, 0, 0]
    · rw [if_pos httl, if_pos (hzero.mp httl)]
      split
      · exact .inl ⟨rfl, rfl⟩
      · exact .inr ⟨_, _, rfl, be32_length 2, rfl⟩
    · rw [if_neg httl, if_neg fun h => httl (hzero.mpr h)]
      by_cases hcut : unbe ttd < env.cur
      · rw [if_neg (not_not.mpr hcut), if_pos hcut]
        exact .inr ⟨ttl, _, rfl, four, rfl⟩
      · rw [if_pos hcut, if_neg hcut]
        exact .inl ⟨rfl, rfl⟩

/-- The record is a wildcard one. -/
def wildMark (ch : UInt8) : Bool := decide ((if located ch then ch - 1 else ch) = 42)

theorem marked_eq {ch : UInt8} (h : ch ∈ [61, 62, 42, 43]) : marked ch = located ch := by
  simp only [List.mem_cons, List.not_mem_nil, or_false] at h
  rcases h with rfl | rfl | rfl | rfl <;> rfl

/-- A plain record is passed over by the search for wildcard records, and the other way round. -/
theorem look_other (env : Lookup.Env) {record : CdbRecord} {q : Name} {t₀ t₁ ch : UInt8}
    {loc ttlstr ttd rdata : Bytes} (h : record.Parts q t₀ t₁ ch loc ttlstr ttd rdata)
    (short : record.data.length ≤ 32767) : env.look (!wildMark ch) record.data = .ok none := by
  have hlook := look_complete env (!wildMark ch) t₀ t₁ rdata h.location h.four h.eight
  have hmatching : env.matching (!wildMark ch) ch loc =
      ((!located ch || decide (loc = env.clientloc)) && decide ((!wildMark ch) = wildMark ch)) := rfl
  have hother : decide ((!wildMark ch) = wildMark ch) = false := by cases wildMark ch <;> rfl
  rw [← h.data, if_neg (Nat.not_lt.mpr short), hmatching, hother, Bool.and_false] at hlook
  exact hlook

/-- A message about a record always has room. -/
theorem message_short {id ttl rdata type : Bytes} {owner q : Name} (hq : Valid q)
    (howner : owner = q ∨ owner = [42] :: q) (two : id.length = 2) (typeTwo : type.length = 2)
    (four : ttl.length = 4) (short : rdata.length ≤ 32767) :
    ¬ (message id owner type ttl rdata).length > 65535 := by
  have hspan := hq.short
  have howner : span owner ≤ span q + 2 := by
    rcases howner with rfl | rfl
    · exact Nat.le_add_right _ _
    · rw [span_cons, List.length_singleton]
      omega
  have hcls : dnsCIn.length = 2 := rfl
  simp only [message, List.length_append, List.length_cons, List.length_nil, wire_length, be16_length]
  omega

/-- **What `build` makes of a record is what `find` makes of it**, a plain or a wildcard record as its
mark says. -/
theorem build_find (env : Lookup.Env) {record : CdbRecord} {q : Name} {t₀ t₁ ch : UInt8}
    {loc ttlstr ttd rdata : Bytes} (h : record.Parts q t₀ t₁ ch loc ttlstr ttd rdata)
    (short : record.data.length ≤ 32767) (flagsoa : Bool) (id : Bytes) (two : id.length = 2)
    (readable : ∀ f, env.look false record.data = .ok (some f) → [t₀, t₁] = dnsTSoa →
      flagsoa = true → ReadableSoa rdata) :
    env.look (!wildMark ch) record.data = .ok none ∧
      ((env.look (wildMark ch) record.data = .ok none ∧ build env record.data q flagsoa id = .ok none) ∨
        ∃ f ttl, env.look (wildMark ch) record.data = .ok (some f) ∧ f.type = [t₀, t₁] ∧
          f.rdata = rdata ∧ ttl.length = 4 ∧
          build env record.data q flagsoa id =
            if flagsoa = decide (f.type = dnsTSoa) ∧ ¬ (wildMark ch = true ∧ flagsoa = true) then
              .ok (some (message id (if wildMark ch then [42] :: q else q) f.type ttl f.rdata))
            else .ok none) := by
  have hmarked := marked_eq h.mark
  have hlook (flagwild : Bool) := look_complete env flagwild t₀ t₁ rdata h.location h.four h.eight
  have hbuild := build_complete env t₀ t₁ rdata (hmarked ▸ h.location) h.four h.eight q flagsoa id
  have hwild : ((if located ch = true then ch - 1 else ch) = 42) ↔ wildMark ch = true := by
    unfold wildMark
    rw [decide_eq_true_iff]
  simp only [hmarked, hwild] at hbuild
  rw [← h.data] at hbuild hlook
  simp only [if_neg (Nat.not_lt.mpr short)] at hlook
  have hmatching (flagwild : Bool) : env.matching flagwild ch loc =
      ((!located ch || decide (loc = env.clientloc)) && decide (flagwild = wildMark ch)) := rfl
  refine ⟨look_other env h short, ?_⟩
  by_cases hclient : located ch = true ∧ loc ≠ env.clientloc
  · left
    rw [hlook, hmatching, hclient.1, decide_eq_false hclient.2, hbuild, if_pos hclient]
    exact ⟨rfl, ite_self _⟩
  · have hhere : (!located ch || decide (loc = env.clientloc)) = true := by
      cases hl : located ch with
      | false => rfl
      | true => exact decide_eq_true (not_not.mp fun hne => hclient ⟨hl, hne⟩)
    rw [hlook, hmatching, hhere, decide_eq_true rfl, hbuild, if_neg hclient]
    rcases shownTtl_iff env h.four ttd with ⟨hshown, hlive⟩ | ⟨ttl, n, hshown, hfour, hlive⟩
    · left
      rw [hshown, hlive]
      exact ⟨rfl, by rw [ite_self, ite_self]⟩
    · right
      rw [hshown, hlive]
      have hdrop := h.drop
      refine ⟨⟨[t₀, t₁], n, record.data, loc.length + 15⟩, ttl, rfl, rfl, hdrop, hfour, ?_⟩
      have howner : (if wildMark ch = true then [42] :: q else q) = q ∨
          (if wildMark ch = true then [42] :: q else q) = [42] :: q := by
        cases wildMark ch
        · exact .inl rfl
        · exact .inr rfl
      generalize (if wildMark ch = true then [42] :: q else q) = owner at howner
      show (if flagsoa ≠ decide ([t₀, t₁] = dnsTSoa) then .ok none
          else if wildMark ch = true ∧ flagsoa = true then .ok none
          else buildRdata [t₀, t₁] record.data (loc.length + 15) >>= fun rdata =>
            if (message id owner [t₀, t₁] ttl rdata).length > 65535 then .error .cdbformat
            else .ok (some (message id owner [t₀, t₁] ttl rdata))) =
        if flagsoa = decide ([t₀, t₁] = dnsTSoa) ∧ ¬ (wildMark ch = true ∧ flagsoa = true) then
          .ok (some (message id owner [t₀, t₁] ttl (record.data.drop (loc.length + 15))))
        else .ok none
      rw [hdrop]
      by_cases hkind : flagsoa = decide ([t₀, t₁] = dnsTSoa)
      · rw [if_neg (not_not.mpr hkind)]
        by_cases hskip : wildMark ch = true ∧ flagsoa = true
        · rw [if_pos hskip, if_neg fun hboth => hboth.2 hskip]
        · have hread : buildRdata [t₀, t₁] record.data (loc.length + 15) = .ok rdata := by
            refine buildRdata_of_fits hdrop h.fits fun hsoa => ?_
            have hflag : flagsoa = true := hkind.trans (decide_eq_true hsoa)
            refine readable ⟨[t₀, t₁], n, record.data, loc.length + 15⟩ ?_ hsoa hflag
            cases hw : wildMark ch with
            | false => rw [hlook, hmatching, hhere, hw, hlive]; rfl
            | true => exact absurd ⟨hw, hflag⟩ hskip
          have hlen : rdata.length ≤ 32767 := by
            rw [← hdrop, List.length_drop]
            omega
          rw [if_neg hskip, if_pos ⟨hkind, hskip⟩, hread]
          exact if_neg (message_short h.valid howner two rfl hfour hlen)
      · rw [if_pos hkind, if_neg fun hboth => hkind hboth.1]

/-! ## What a transfer has to carry -/

/-- The record that `find` reads, with its owner: a plain record is its key's, a wildcard one that of
the names below. -/
def found (env : Lookup.Env) (q : Name) (data : Bytes) : Option (Name × Found) :=
  match env.look false data, env.look true data with
  | .ok (some f), _ => some (q, f)
  | _, .ok (some f) => some ([42] :: q, f)
  | _, _ => none

/-- What is served of a stored record to this client at this time, if its owner is at or below the
zone and it is no SOA record. -/
def served (env : Lookup.Env) (zone : Name) (record : CdbRecord) : Option (Name × Found) :=
  match dnsPacketGetname record.key 0 with
  | some (q, stop) =>
    if stop = record.key.length ∧ dnsDomainSuffix q zone = true then
      (found env q record.data).filter fun x => decide (x.2.type ≠ dnsTSoa)
    else none
  | none => none

/-- A message with the owner, type and data of a record. -/
def Carries (id : Bytes) (x : Name × Found) (sa : Bytes) : Prop :=
  ∃ ttl : Bytes, ttl.length = 4 ∧ sa = message id x.1 x.2.type ttl x.2.rdata

theorem found_none {env : Lookup.Env} {data : Bytes} {wild : Bool}
    (other : env.look (!wild) data = .ok none) (none : env.look wild data = .ok none) (q : Name) :
    found env q data = .none := by
  unfold found
  cases wild with
  | false => rw [none, show env.look true data = .ok .none from other]
  | true => rw [none, show env.look false data = .ok .none from other]

theorem found_some {env : Lookup.Env} {data : Bytes} {wild : Bool} {f : Found}
    (other : env.look (!wild) data = .ok none) (some : env.look wild data = .ok (some f)) (q : Name) :
    found env q data = .some (if wild then [42] :: q else q, f) := by
  unfold found
  cases wild with
  | false =>
    rw [some]
    rfl
  | true =>
    rw [some, show env.look false data = .ok none from other]
    rfl

theorem look_of_found {env : Lookup.Env} {data : Bytes} {q owner : Name} {f : Found}
    (h : found env q data = some (owner, f)) :
    ∃ wild, env.look wild data = .ok (some f) ∧ owner = if wild then [42] :: q else q := by
  unfold found at h
  split at h
  · rename_i hlook
    obtain ⟨rfl, rfl⟩ := Prod.mk.inj (Option.some.inj h)
    exact ⟨false, hlook, rfl⟩
  · rename_i hlook _
    obtain ⟨rfl, rfl⟩ := Prod.mk.inj (Option.some.inj h)
    exact ⟨true, hlook, rfl⟩
  · cases h

theorem getname_of_key {record : CdbRecord} {q : Name} (valid : Valid q)
    (key : record.key = wire q) :
    dnsPacketGetname record.key 0 = some (q, record.key.length) := by
  have hread := @dnsPacketGetname_wire (wire q) 0 q valid (List.prefix_refl _)
  rw [key, hread, wire_length, Nat.zero_add]

/-- A record that is stored under a name is no location. -/
theorem not_location_of_key {record : CdbRecord} {q : Name} (valid : Valid q)
    (key : record.key = wire q) : ¬ (record.key.length > 1 ∧ record.key.headD 0 = 0) := by
  rintro ⟨hlong, hzero⟩
  have hlocation := isLocation_wire valid.labels
  rw [← key] at hlocation
  match hrecord : record.key, hlong with
  | b :: c :: rest, _ =>
    rw [hrecord] at hzero hlocation
    rw [show b = 0 from hzero] at hlocation
    cases hlocation

theorem served_location (env : Lookup.Env) (zone : Name) (addr loc : Bytes) :
    served env zone ⟨0 :: 37 :: addr, loc⟩ = none := by
  have hread : dnsPacketGetname (0 :: 37 :: addr) 0 = some ([], 1) :=
    @dnsPacketGetname_wire (0 :: 37 :: addr) 0 [] .nil ⟨37 :: addr, rfl⟩
  unfold served
  rw [hread]
  simp only []
  exact if_neg fun hboth => absurd hboth.1 (by simp)

theorem served_of_key {env : Lookup.Env} {zone q : Name} {record : CdbRecord} (valid : Valid q)
    (key : record.key = wire q) (below : dnsDomainSuffix q zone = true) :
    served env zone record =
      (found env q record.data).filter fun x => decide (x.2.type ≠ dnsTSoa) := by
  unfold served
  rw [getname_of_key valid key]
  exact if_pos ⟨rfl, below⟩

theorem served_outside {env : Lookup.Env} {zone q : Name} {record : CdbRecord} (valid : Valid q)
    (key : record.key = wire q) (outside : dnsDomainSuffix q zone = false) :
    served env zone record = none := by
  unfold served
  rw [getname_of_key valid key]
  exact if_neg fun hboth => by rw [outside] at hboth; cases hboth.2

/-- **What is served is what `find` answers**, for every name at or below the zone, plain or
wildcard. -/
theorem mem_served {env : Lookup.Env} (made : AllMade env.db.records) {zone owner : Name} {f : Found} :
    (owner, f) ∈ env.db.records.filterMap (served env zone) ↔
      ∃ q wild, Valid q ∧ dnsDomainSuffix q zone = true ∧ some f ∈ env.find q wild ∧
        f.type ≠ dnsTSoa ∧ owner = if wild then [42] :: q else q := by
  rw [List.mem_filterMap]
  constructor
  · rintro ⟨record, hmem, hserved⟩
    rcases (made record hmem).parts with ⟨addr, loc, rfl⟩ | ⟨q, t₀, t₁, ch, loc, ttlstr, ttd, rdata, h⟩
    · rw [served_location] at hserved
      cases hserved
    · have hstored : record ∈ env.stored q := List.mem_filter.mpr ⟨hmem, decide_eq_true h.key⟩
      cases hsuffix : dnsDomainSuffix q zone with
      | false =>
        rw [served_outside h.valid h.key hsuffix] at hserved
        cases hserved
      | true =>
        rw [served_of_key h.valid h.key hsuffix, Option.filter_eq_some_iff] at hserved
        obtain ⟨hfound, hplain⟩ := hserved
        obtain ⟨wild, hlook, howner⟩ := look_of_found hfound
        exact ⟨q, wild, h.valid, hsuffix, some_mem_find.mpr ⟨record, hstored, hlook⟩,
          of_decide_eq_true hplain, howner⟩
  · rintro ⟨q, wild, hvalid, hsuffix, hfind, hplain, rfl⟩
    obtain ⟨record, hstored, hlook⟩ := some_mem_find.mp hfind
    obtain ⟨hmem, hkey⟩ := List.mem_filter.mp hstored
    have hkey : record.key = wire q := of_decide_eq_true hkey
    refine ⟨record, hmem, ?_⟩
    rw [served_of_key hvalid hkey hsuffix]
    rcases (made record hmem).parts with ⟨addr, loc, rfl⟩ | ⟨q', t₀, t₁, ch, loc, ttlstr, ttd, rdata, h⟩
    · have hwire := isLocation_wire hvalid.labels
      rw [← hkey] at hwire
      cases hwire
    · have hshort : record.data.length ≤ 32767 := by
        by_contra hlong
        unfold Env.look at hlook
        rw [if_pos (by omega)] at hlook
        cases hlook
      have hother := look_other env h hshort
      have hwild : wild = wildMark ch := by
        by_contra hne
        have hflip : (!wildMark ch) = wild := by cases wild <;> cases hw : wildMark ch <;> simp_all
        rw [hflip, hlook] at hother
        cases hother
      rw [hwild] at hlook ⊢
      rw [found_some hother hlook, Option.filter_some, if_pos (decide_eq_true hplain)]

/-- **A record is sent exactly when it is served**, and as it is served. -/
theorem transfer_served (env : Lookup.Env) (zone : Name) {id : Bytes} (two : id.length = 2)
    {record : CdbRecord} (made : record.Made) (short : record.data.length ≤ 32767) :
    ∃ m, transfer env zone id record = .ok m ∧ Option.Rel (Carries id) (served env zone record) m := by
  rcases made.parts with ⟨addr, loc, rfl⟩ | ⟨q, t₀, t₁, ch, loc, ttlstr, ttd, rdata, h⟩
  · refine ⟨none, if_pos ⟨Nat.le_add_left 2 addr.length, rfl⟩, ?_⟩
    rw [served_location]
    exact .none
  · have hkey := getname_of_key h.valid h.key
    have hlong : ¬ record.key.length < 1 := by
      rw [h.key, wire_length]
      omega
    unfold transfer
    rw [if_neg (not_location_of_key h.valid h.key), if_neg hlong, hkey]
    simp only [ne_eq, not_true_eq_false, if_false]
    cases hsuffix : dnsDomainSuffix q zone with
    | false =>
      rw [served_outside h.valid h.key hsuffix]
      exact ⟨none, rfl, .none⟩
    | true =>
      rw [served_of_key h.valid h.key hsuffix]
      simp only [Bool.not_true, Bool.false_eq_true, if_false]
      obtain ⟨hother, hfind⟩ := build_find env h short false id two
        fun _ _ _ hflag => absurd hflag Bool.false_ne_true
      rcases hfind with ⟨hnone, hbuild⟩ | ⟨f, ttl, hsome, htype, hrdata, hfour, hbuild⟩
      · rw [found_none hother hnone]
        exact ⟨none, hbuild, .none⟩
      · rw [found_some hother hsome]
        by_cases hsoa : f.type = dnsTSoa
        · rw [if_neg fun hboth => by rw [decide_eq_true hsoa] at hboth; cases hboth.1] at hbuild
          refine ⟨none, hbuild, ?_⟩
          rw [Option.filter_some, if_neg (by simpa using hsoa)]
          exact .none
        · rw [if_pos ⟨(decide_eq_false hsoa).symm, fun hboth => Bool.false_ne_true hboth.2⟩] at hbuild
          refine ⟨_, hbuild, ?_⟩
          rw [Option.filter_some, if_pos (by simpa using hsoa)]
          exact .some ⟨ttl, hfour, rfl⟩

/-! ## The file -/

/-- A record in the file: the lengths of its key and its data, and both. -/
def cdbRecord (record : CdbRecord) : Bytes :=
  le32 record.key.length ++ (le32 record.data.length ++ (record.key ++ record.data))

/-- **The file of a database**: 2048 octets that point to the hash tables, the first of which begins
where the records end; the records; and the tables. -/
structure IsCdb (records : List CdbRecord) (file : Bytes) : Prop where
  small : 2048 + (records.flatMap cdbRecord).length < 4294967296
  head : 2048 ≤ file.length
  eod : file.take 4 = le32 (2048 + (records.flatMap cdbRecord).length)
  records : records.flatMap cdbRecord <+: file.drop 2048

theorem get_append {field file : Bytes} {len : Nat} (h : field.length = len) :
    get len (field ++ file) = .ok (field, file) := by
  unfold get
  rw [if_neg (by rw [List.length_append]; omega), ← h, List.take_left, List.drop_left]

theorem cdbRecord_length (record : CdbRecord) :
    (cdbRecord record).length = 8 + record.key.length + record.data.length := by
  simp only [cdbRecord, List.length_append, le32_length]
  omega

/-- **The next record is read whole**, and the count of octets keeps up. -/
theorem nextRecord_cdbRecord {record : CdbRecord} (keyShort : record.key.length ≤ 512)
    (short : record.data.length ≤ 32767) {eod pos : Nat}
    (room : pos + (cdbRecord record).length ≤ eod) (rest : Bytes) :
    nextRecord eod pos (cdbRecord record ++ rest) =
      .ok (record, pos + (cdbRecord record).length, rest) := by
  rw [cdbRecord_length] at room ⊢
  have hklen : unle (le32 record.key.length) = record.key.length := unle_le32 (by omega)
  have hdlen : unle (le32 record.data.length) = record.data.length := unle_le32 (by omega)
  unfold nextRecord cdbRecord
  simp only [List.append_assoc]
  rw [if_neg (by omega), get_append (le32_length _)]
  simp only [bind, Except.bind, hklen]
  rw [get_append (le32_length _)]
  simp only [hdlen]
  rw [if_neg (by omega), if_neg (by omega), if_neg (by omega), get_append rfl]
  simp only []
  rw [if_neg (by omega), get_append rfl]
  simp only []
  rw [show pos + (8 + record.key.length + record.data.length) =
    pos + 8 + record.key.length + record.data.length by omega]

/-- **The walk skips no record and repeats none.** -/
theorem walk_served (env : Lookup.Env) (zone : Name) {id : Bytes} (two : id.length = 2)
    {records : List CdbRecord}
    (small : ∀ record ∈ records, record.Made ∧ record.key.length ≤ 512 ∧ record.data.length ≤ 32767)
    {rounds pos eod : Nat} (enough : (records.flatMap cdbRecord).length < rounds)
    (ends : pos + (records.flatMap cdbRecord).length = eod) (rest : Bytes) :
    ∃ messages, walk env zone id eod rounds pos (records.flatMap cdbRecord ++ rest) =
      (messages, none) ∧ List.Forall₂ (Carries id) (records.filterMap (served env zone)) messages := by
  induction records generalizing rounds pos with
  | nil =>
    match rounds, enough with
    | rounds + 1, _ =>
      refine ⟨[], ?_, .nil⟩
      have hends : ¬ pos < eod := by
        rw [← ends]
        exact Nat.lt_irrefl _
      unfold walk
      rw [if_neg hends]
  | cons record records ih =>
    obtain ⟨hmade, hkey, hdata⟩ := small record List.mem_cons_self
    match rounds, enough with
    | rounds + 1, enough =>
      rw [List.flatMap_cons, List.length_append] at ends enough
      have hlen := cdbRecord_length record
      obtain ⟨messages, hwalk, hmessages⟩ := @ih
        (fun r hr => small r (List.mem_cons_of_mem _ hr)) rounds (pos + (cdbRecord record).length)
        (by omega) (by omega)
      obtain ⟨m, htransfer, hserved⟩ := transfer_served env zone two hmade hdata
      unfold walk
      rw [List.flatMap_cons, List.append_assoc, if_pos (by omega),
        nextRecord_cdbRecord hkey hdata (by omega)]
      simp only [htransfer, hwalk]
      generalize hx : served env zone record = x at hserved
      cases hserved with
      | none => exact ⟨messages, rfl, by rwa [List.filterMap_cons_none hx]⟩
      | some hcarries => exact ⟨_, rfl, by rw [List.filterMap_cons_some hx]; exact .cons hcarries hmessages⟩

/-! ## The SOA record -/

/-- What a loop around `find` gets to see, record by record. -/
def seen (env : Lookup.Env) (flagwild : Bool) (record : CdbRecord) : Option Found :=
  match env.look flagwild record.data with
  | .ok found => found
  | .error () => none

theorem visible_eq_filterMap (env : Lookup.Env) (d : Name) (flagwild : Bool) :
    env.visible d flagwild = (env.stored d).filterMap (seen env flagwild) := by
  unfold Env.visible List.reduceOption Env.find
  rw [List.filterMap_filterMap]
  refine List.filterMap_congr fun record _ => ?_
  unfold seen
  cases env.look flagwild record.data with
  | error => rfl
  | ok found => cases found <;> rfl

/-- **The SOA record of a transfer is the first that `find` shows.** -/
theorem findSoa_first (env : Lookup.Env) {zone : Name} {id : Bytes} (two : id.length = 2)
    {records : List CdbRecord}
    (small : ∀ record ∈ records, record.Made ∧ record.key = wire zone ∧ record.data.length ≤ 32767)
    (valid : Valid zone) {f : Found}
    (first : (records.filterMap (seen env false)).find? (fun f => decide (f.type = dnsTSoa)) = some f)
    (readable : ReadableSoa f.rdata) :
    ∃ soa, findSoa env zone id records = .ok soa ∧ Carries id (zone, f) soa := by
  induction records with
  | nil => cases first
  | cons record records ih =>
    obtain ⟨hmade, hkey, hshort⟩ := small record List.mem_cons_self
    have hrest := fun hfirst => ih (fun r hr => small r (List.mem_cons_of_mem _ hr)) hfirst
    unfold findSoa
    rw [if_neg (Nat.not_lt.mpr hshort)]
    rcases hmade.parts with ⟨addr, loc, rfl⟩ | ⟨q, t₀, t₁, ch, loc, ttlstr, ttd, rdata, h⟩
    · have hwire := isLocation_wire valid.labels
      rw [← hkey] at hwire
      cases hwire
    · have hq : q = zone := (wire_inj h.valid valid).mp (h.key.symm.trans hkey)
      subst hq
      have hread : ∀ g, env.look false record.data = .ok (some g) → [t₀, t₁] = dnsTSoa →
          true = true → ReadableSoa rdata := by
        intro g hg hsoa _
        obtain ⟨hdata, htype, hdpos⟩ := look_some hg
        have hseen : seen env false record = some g := by
          unfold seen
          rw [hg]
        rw [h.data] at htype hdpos
        rw [List.filterMap_cons_some hseen, List.find?_cons_of_pos (by
          rw [htype]
          exact decide_eq_true hsoa)] at first
        have hlen : (if located ((t₀ :: t₁ :: ch :: (loc ++ (ttlstr ++ (ttd ++ rdata)))).getD 2 0) then 17
            else 15) = loc.length + 15 := by
          show (if located ch then 17 else 15) = loc.length + 15
          rw [h.location]
          split <;> rfl
        have hrdata : g.rdata = rdata := by
          unfold Found.rdata
          rw [hdata, hdpos, hlen, h.drop]
        rwa [← Option.some.inj first, hrdata] at readable
      obtain ⟨hother, hfind⟩ := build_find env h hshort true id two hread
      rcases hfind with ⟨hnone, hbuild⟩ | ⟨g, ttl, hsome, htype, hrdata, hfour, hbuild⟩
      · have hseen : seen env false record = none := by
          unfold seen
          cases hw : wildMark ch with
          | false => rw [← hw, hnone]
          | true => rw [show env.look false record.data = .ok none from by rwa [hw] at hother]
        rw [List.filterMap_cons_none hseen] at first
        simp only [hbuild]
        exact hrest first
      · cases hw : wildMark ch with
        | false =>
          rw [hw] at hsome hbuild
          have hseen : seen env false record = some g := by
            unfold seen
            rw [hsome]
          rw [List.filterMap_cons_some hseen] at first
          by_cases hsoa : g.type = dnsTSoa
          · rw [List.find?_cons_of_pos (by exact decide_eq_true hsoa)] at first
            rw [← Option.some.inj first]
            rw [if_pos ⟨(decide_eq_true hsoa).symm, fun hboth => Bool.false_ne_true hboth.1⟩] at hbuild
            simp only [hbuild]
            exact ⟨_, rfl, ttl, hfour, rfl⟩
          · rw [List.find?_cons_of_neg (by rw [decide_eq_false hsoa]; exact Bool.false_ne_true)] at first
            rw [if_neg fun hboth => by rw [decide_eq_false hsoa] at hboth; cases hboth.1] at hbuild
            simp only [hbuild]
            exact hrest first
        | true =>
          have hseen : seen env false record = none := by
            unfold seen
            rw [show env.look false record.data = .ok none from by rwa [hw] at hother]
          rw [List.filterMap_cons_none hseen] at first
          rw [if_neg fun hboth => hboth.2 ⟨hw, rfl⟩] at hbuild
          simp only [hbuild]
          exact hrest first

/-- **A transfer sends what is served.** Where no record is too long for the buffers and the SOA
record can be read, what is printed is the first visible SOA record of the zone, every visible
record at or below the zone that is no SOA record in the order of the database, and the SOA record
again; and the records between are what `find` answers for the names at or below the zone. -/
theorem doaxfr_sends {cenv : Data.Env} {text file id : Bytes} {env : Lookup.Env} {zone : Name}
    {axfr : Option Bytes} {f : Found} (made : compileFile cenv text = .ok env.db.records)
    (cdb : IsCdb env.db.records file)
    (small : ∀ record ∈ env.db.records, record.key.length ≤ 512 ∧ record.data.length ≤ 32767)
    (valid : Valid zone) (permitted : axfrcheck axfr zone = .ok ()) (two : id.length = 2)
    (first : (env.visible zone false).find? (fun f => decide (f.type = dnsTSoa)) = some f)
    (readable : ReadableSoa f.rdata) :
    ∃ soa messages, doaxfr env file axfr zone id = (soa :: messages ++ [soa], none) ∧
      Carries id (zone, f) soa ∧
      List.Forall₂ (Carries id) (env.db.records.filterMap (served env zone)) messages ∧
      ∀ owner g, (owner, g) ∈ env.db.records.filterMap (served env zone) ↔
        ∃ q wild, Valid q ∧ dnsDomainSuffix q zone = true ∧ some g ∈ env.find q wild ∧
          g.type ≠ dnsTSoa ∧ owner = if wild then [42] :: q else q := by
  have hmade := compileLines_made made
  have hstored : ∀ record ∈ env.stored zone,
      record.Made ∧ record.key = wire zone ∧ record.data.length ≤ 32767 := by
    intro record hrecord
    obtain ⟨hmem, hkey⟩ := List.mem_filter.mp hrecord
    exact ⟨hmade record hmem, of_decide_eq_true hkey, (small record hmem).2⟩
  rw [visible_eq_filterMap] at first
  obtain ⟨soa, hsoa, hcarries⟩ := findSoa_first env two hstored valid first readable
  obtain ⟨tables, htables⟩ := cdb.records
  have hend : unle ((file.take 2048).take 4) = 2048 + (env.db.records.flatMap cdbRecord).length := by
    rw [List.take_take, show min 4 2048 = 4 from rfl, cdb.eod]
    exact unle_le32 cdb.small
  have hrounds : (env.db.records.flatMap cdbRecord).length < (file.drop 2048).length + 1 := by
    rw [← htables, List.length_append]
    omega
  obtain ⟨messages, hwalk, hmessages⟩ := walk_served env zone two
    (fun record hmem => ⟨hmade record hmem, small record hmem⟩) hrounds rfl tables
  refine ⟨soa, messages, ?_, hcarries, hmessages, fun _ _ => mem_served hmade⟩
  unfold doaxfr get
  rw [permitted]
  simp only [hsoa]
  rw [if_neg (Nat.not_lt.mpr cdb.head)]
  simp only [hend]
  rw [htables] at hwalk
  rw [hwalk]

/-- The zone `z` with one server and a wildcard, and a location. -/
def zoneText : Bytes := ascii "Zz:a.z:b.z\n&z::a.z\n+*.z:1.2.3.4\n%ab:10\n"

/-- The same with a location that has a long address. -/
def longText : Bytes := zoneText ++ (ascii "%cd:s" ++ List.replicate 600 48)

def compiled (text : Bytes) : List CdbRecord :=
  match compileFile ⟨1, 0⟩ text with
  | .ok records => records
  | .error _ => []

theorem compiled_eq {text : Bytes} (h : (compileFile ⟨1, 0⟩ text).isOk = true) :
    compileFile ⟨1, 0⟩ text = .ok (compiled text) := by
  obtain ⟨records, hrun⟩ := exists_of_isOk h
  unfold compiled
  rw [hrun]

/-- The file of some records, with no hash tables. -/
def cdbFile (records : List CdbRecord) : Bytes :=
  le32 (2048 + (records.flatMap cdbRecord).length) ++
    (List.replicate 2044 0 ++ records.flatMap cdbRecord)

theorem isCdb_cdbFile {records : List CdbRecord}
    (small : 2048 + (records.flatMap cdbRecord).length < 4294967296) :
    IsCdb records (cdbFile records) := by
  have hdrop : (cdbFile records).drop 2048 = records.flatMap cdbRecord := by
    have hhead : (le32 (2048 + (records.flatMap cdbRecord).length) ++
        List.replicate 2044 (0 : UInt8)).length = 2048 := by
      rw [List.length_append, List.length_replicate]
      rfl
    unfold cdbFile
    rw [← List.append_assoc, List.drop_left' hhead]
  refine ⟨small, ?_, rfl, hdrop ▸ List.prefix_refl _⟩
  unfold cdbFile
  rw [List.length_append, List.length_append, List.length_replicate, le32_length]
  omega

def zoneEnv : Lookup.Env :=
  Env.of (Database.ofFile (@compiled_eq zoneText (by decide +kernel))) false

/-- The SOA record of the zone, as `find` reads it. -/
def zoneSoa : Found := ⟨[0, 6], 2560, ((compiled zoneText).map CdbRecord.data).headD [], 15⟩

theorem doaxfr_sends_zone : ∃ soa ns a,
    doaxfr zoneEnv (cdbFile (compiled zoneText)) none [[122]] [0, 7] = ([soa, ns, a, soa], none) := by
  have hreadable : ReadableSoa zoneSoa.rdata :=
    ⟨[[97], [122]], [[98], [122]], [0, 0, 0, 1, 0, 0, 64, 0, 0, 0, 8, 0, 0, 16, 0, 0, 0, 0, 10, 0],
      by decide, by decide, rfl, by decide +kernel⟩
  obtain ⟨soa, messages, hrun, _, hall, _⟩ := @doaxfr_sends ⟨1, 0⟩ zoneText
    (cdbFile (compiled zoneText)) [0, 7] zoneEnv [[122]] none zoneSoa
    (compiled_eq (by decide +kernel)) (isCdb_cdbFile (by decide +kernel)) (by decide +kernel)
    (by decide) rfl rfl rfl hreadable
  have hlen : messages.length = 2 := by
    rw [← hall.length_eq]
    decide +kernel
  match messages, hlen with
  | [ns, a], _ => exact ⟨soa, ns, a, hrun⟩

def longEnv : Lookup.Env :=
  Env.of (Database.ofFile (@compiled_eq longText (by decide +kernel))) false

theorem ofFile_records {cenv : Data.Env} {text : Bytes} {records : List CdbRecord}
    (made : compileFile cenv text = .ok records) : (Database.ofFile made).records = records :=
  rfl

theorem longEnv_compiled : compileFile ⟨1, 0⟩ longText = .ok longEnv.db.records := by
  have hcompiled : compileFile ⟨1, 0⟩ longText = .ok (compiled longText) :=
    compiled_eq (by decide +kernel)
  exact hcompiled.trans (congrArg Except.ok (ofFile_records hcompiled).symm)

theorem longEnv_soa : ∃ f,
    (longEnv.visible [[122]] false).find? (fun f => decide (f.type = dnsTSoa)) = some f :=
  Option.isSome_iff_exists.mp (by decide +kernel)

/-- A location with a long address ends every transfer. -/
theorem doaxfr_stops_long : ¬ ∀ (cenv : Data.Env) (text file id : Bytes) (env : Lookup.Env)
    (zone : Name) (f : Found), compileFile cenv text = .ok env.db.records →
    IsCdb env.db.records file → Valid zone → id.length = 2 →
    (env.visible zone false).find? (fun f => decide (f.type = dnsTSoa)) = some f →
    ∃ soa messages, doaxfr env file none zone id = (soa :: messages ++ [soa], none) ∧
      Carries id (zone, f) soa ∧
      List.Forall₂ (Carries id) (env.db.records.filterMap (served env zone)) messages := by
  intro h
  obtain ⟨f, hf⟩ := longEnv_soa
  have hcdb : IsCdb longEnv.db.records (cdbFile longEnv.db.records) :=
    isCdb_cdbFile (by decide +kernel)
  have hlong := h ⟨1, 0⟩ longText (cdbFile longEnv.db.records) [0, 7] longEnv [[122]] f
    longEnv_compiled hcdb (by decide) rfl
  obtain ⟨soa, messages, hrun, _⟩ := hlong hf
  have hended := congrArg Prod.snd hrun
  exact absurd hended (show
    ¬ (doaxfr longEnv (cdbFile longEnv.db.records) none [[122]] [0, 7]).2 = none by decide +kernel)

end TinyDnssec.Axfrdns
