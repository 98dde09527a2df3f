import TinyDnssec.Base.Loop
import TinyDnssec.Data.Compile
import TinyDnssec.Packet

/-!
# Databases

What a reader of the database may rely on: a record is stored either under the key of a client
location, which is no name, or under the wire form of a name, and then it begins with all the fixed
fields that `rr_start` writes. A `Database` carries that with it, and `compileFile` makes one.

That `cdb_findnext` finds what `cdb_make_add` was given is taken for granted.
-/

namespace TinyDnssec.Data

open Octets Loop

/-- A mark that is followed by a location. -/
def located (ch : UInt8) : Bool := decide (ch = 62) || decide (ch = 43) || decide (ch = 55)

/-- Type, mark, location where the mark says so, ttl and timestamp are all there. -/
def isComplete : Bytes → Bool
  | _ :: _ :: ch :: rest => decide ((if located ch then 14 else 12) ≤ rest.length)
  | _ => false

def isName (key : Bytes) : Bool :=
  match dnsPacketGetname key 0 with
  | some (n, _) => decide (wire n = key)
  | none => false

def isLocation : Bytes → Bool
  | 0 :: _ :: _ => true
  | _ => false

def CdbRecord.wellFormed (record : CdbRecord) : Bool :=
  isLocation record.key || (isName record.key && isComplete record.data)

/-- The records of a `data.cdb`, in the order they were added. -/
structure Database where
  records : List CdbRecord
  wellFormed : ∀ record ∈ records, record.wellFormed = true
deriving DecidableEq

theorem isName_wire {n : Name} (valid : Valid n) : isName (wire n) = true := by
  have hread := @dnsPacketGetname_wire (wire n) 0 n valid (List.prefix_refl _)
  unfold isName
  rw [hread]
  exact decide_eq_true rfl

theorem isName_iff {key : Bytes} : isName key = true ↔ ∃ n, Valid n ∧ key = wire n := by
  constructor
  · intro h
    unfold isName at h
    split at h
    · rename_i n _ hread
      exact ⟨n, dnsPacketGetname_valid hread, (of_decide_eq_true h).symm⟩
    · cases h
  · rintro ⟨n, hvalid, rfl⟩
    exact isName_wire hvalid

/-- No name is stored under the key of a location. -/
theorem isLocation_wire {n : Name} (labels : ∀ l ∈ n, ValidLabel l) :
    isLocation (wire n) = false := by
  cases n with
  | nil => rfl
  | cons l n =>
    have hlabel := labels l List.mem_cons_self
    have hlen := lengthOctet_toNat hlabel.short
    have hpos := hlabel.length_pos
    unfold wire
    unfold isLocation
    split
    · rename_i heq
      rw [(List.cons.inj heq).1] at hlen
      exact absurd hlen.symm hpos.ne'
    · rfl

/-! ## What `tinydns-data` makes -/

theorem isComplete_rrStart {type ttd loc : Bytes} (two : type.length = 2) (ttdEight : ttd.length = 8)
    (locTwo : loc.length = 2) (ttl : Nat) (rdata : Bytes) :
    isComplete (rrStart type ttl ttd loc ++ rdata) = true ∧
      isComplete ((rrStart type ttl ttd loc ++ rdata).modify 2 (· - 19)) = true := by
  obtain ⟨t₀, t₁, rfl⟩ := List.length_eq_two.mp two
  have hplain : 12 ≤ ((be32 ttl ++ ttd) ++ rdata).length := by
    simp only [List.length_append, be32_length, ttdEight]
    omega
  have hlocated : 14 ≤ ((loc ++ (be32 ttl ++ ttd)) ++ rdata).length := by
    simp only [List.length_append, be32_length, ttdEight, locTwo]
    omega
  unfold rrStart
  split
  · exact ⟨decide_eq_true hplain, decide_eq_true hplain⟩
  · exact ⟨decide_eq_true hlocated, decide_eq_true hlocated⟩

/-- The base of a wildcard owner is a name of its own. -/
theorem wildcardBase_valid {owner base : Name} (valid : Valid owner)
    (h : wildcardBase owner = some base) : Valid base := by
  unfold wildcardBase at h
  split at h
  · cases h
    exact valid.tail
  · cases h

theorem rrFinish_wellFormed {owner : Name} (valid : Valid owner) (toLower : Bool)
    {type ttd loc : Bytes} (two : type.length = 2) (ttdEight : ttd.length = 8)
    (locTwo : loc.length = 2) (ttl : Nat) (rdata : Bytes) :
    (rrFinish owner toLower (rrStart type ttl ttd loc ++ rdata)).wellFormed = true := by
  obtain ⟨hplain, hwild⟩ := isComplete_rrStart two ttdEight locTwo ttl rdata
  have hkey {n : Name} (hn : Valid n) :
      isName (if toLower = true then lower (wire n) else wire n) = true := by
    split
    · rw [lower_wire hn.labels]
      exact isName_wire hn.lower
    · exact isName_wire hn
  unfold rrFinish CdbRecord.wellFormed
  cases hbase : wildcardBase owner with
  | some base =>
    simp only [hkey (wildcardBase_valid valid hbase), hwild, Bool.and_self, Bool.or_true]
  | none => simp only [hkey valid, hplain, Bool.and_self, Bool.or_true]

theorem ttdparse_length (sa : Bytes) : (ttdparse sa).length = 8 := by
  unfold ttdparse
  rw [List.length_map, List.length_range]

theorem locparse_length (sa : Bytes) : (locparse sa).length = 2 := rfl

theorem fromdot_eq_ok {s : Bytes} {d : Name} : fromdot s = .ok d ↔ dnsDomainFromdot s = some d := by
  unfold fromdot
  cases dnsDomainFromdot s with
  | none => exact iff_of_false (fun h => by cases h) fun h => by cases h
  | some e => exact ⟨fun h => congrArg some (Except.ok.inj h), fun h => congrArg Except.ok (Option.some.inj h)⟩

/-- The location mark of a record. -/
def locationMark (owner : Name) (loc : Bytes) : UInt8 :=
  (if loc = [0, 0] then 61 else 62) - if (wildcardBase owner).isSome then 19 else 0

/-- What is stored of a record, field by field. -/
theorem rrFinish_data (owner : Name) (toLower : Bool) (t₀ t₁ : UInt8) (ttl : Nat)
    (ttd loc rdata : Bytes) :
    (rrFinish owner toLower (rrStart [t₀, t₁] ttl ttd loc ++ rdata)).data =
      t₀ :: t₁ :: locationMark owner loc ::
        ((if loc = [0, 0] then [] else loc) ++ (be32 ttl ++ (ttd ++ rdata))) := by
  unfold rrFinish rrStart locationMark
  by_cases hloc : loc = [0, 0]
  · rw [if_pos hloc, if_pos hloc, if_pos hloc]
    cases wildcardBase owner <;> rfl
  · rw [if_neg hloc, if_neg hloc, if_neg hloc]
    cases wildcardBase owner <;> simp only [List.cons_append, List.nil_append, List.append_assoc,
      List.modify_succ_cons, List.modify_zero_cons, Option.isSome_none, Option.isSome_some,
      Bool.false_eq_true, if_false, if_true, sub_zero]

theorem rr_data (owner : Name) (t₀ t₁ : UInt8) (ttl : Nat) (ttd loc rdata : Bytes) :
    (rr owner [t₀, t₁] ttl ttd loc rdata).data = t₀ :: t₁ :: locationMark owner loc ::
      ((if loc = [0, 0] then [] else loc) ++ (be32 ttl ++ (ttd ++ rdata))) :=
  rrFinish_data owner true t₀ t₁ ttl ttd loc rdata

/-- What a record is stored under. -/
theorem rrFinish_key {owner : Name} (valid : Valid owner) (toLower : Bool) (result : Bytes) :
    ∃ q, Valid q ∧ (rrFinish owner toLower result).key = wire q := by
  have hkey {n : Name} (hn : Valid n) :
      ∃ q, Valid q ∧ (if toLower then lower (wire n) else wire n) = wire q := by
    split
    · exact ⟨lowerName n, hn.lower, lower_wire hn.labels⟩
    · exact ⟨n, hn, rfl⟩
  unfold rrFinish
  cases hbase : wildcardBase owner with
  | some base => exact hkey (wildcardBase_valid valid hbase)
  | none => exact hkey valid

/-- The data of a record fits its type: where a name is expected there is one. The contact of a zone
may be too long for a name. -/
structure Fits (type rdata : Bytes) : Prop where
  name : type = dnsTNs ∨ type = dnsTPtr ∨ type = dnsTCname → ∃ d, Valid d ∧ rdata = wire d
  mx : type = dnsTMx → ∃ dist d, dist.length = 2 ∧ Valid d ∧ rdata = dist ++ wire d
  soa : type = dnsTSoa → ∃ mname rname numbers, Valid mname ∧ (∀ l ∈ rname, ValidLabel l) ∧
    numbers.length = 20 ∧ rdata = wire mname ++ (wire rname ++ numbers)

theorem Fits.other {type : Bytes}
    (h : type ∉ [dnsTNs, dnsTPtr, dnsTCname, dnsTMx, dnsTSoa]) (rdata : Bytes) :
    Fits type rdata := by
  simp only [List.mem_cons, List.not_mem_nil, or_false, not_or] at h
  refine ⟨fun hname => ?_, fun hmx => absurd hmx h.2.2.2.1, fun hsoa => absurd hsoa h.2.2.2.2⟩
  rcases hname with hname | hname | hname
  · exact absurd hname h.1
  · exact absurd hname h.2.1
  · exact absurd hname h.2.2.1

theorem Fits.ofName {type : Bytes} (h : type ≠ dnsTMx ∧ type ≠ dnsTSoa) {d : Name} (valid : Valid d) :
    Fits type (wire d) :=
  ⟨fun _ => ⟨d, valid, rfl⟩, fun hmx => absurd hmx h.1, fun hsoa => absurd hsoa h.2⟩

theorem Fits.ofMx {dist : Bytes} (two : dist.length = 2) {d : Name} (valid : Valid d) :
    Fits dnsTMx (dist ++ wire d) :=
  ⟨fun h => absurd h (by decide), fun _ => ⟨dist, d, two, valid, rfl⟩, fun h => absurd h (by decide)⟩

theorem Fits.ofSoa {mname rname : Name} (hm : Valid mname) (hr : ∀ l ∈ rname, ValidLabel l)
    {numbers : Bytes} (twenty : numbers.length = 20) :
    Fits dnsTSoa (wire mname ++ (wire rname ++ numbers)) :=
  ⟨fun h => absurd h (by decide), fun h => absurd h (by decide),
    fun _ => ⟨mname, rname, numbers, hm, hr, twenty, rfl⟩⟩

/-- **A record as the compiler makes it**: a location, or data under a name. -/
inductive CdbRecord.Made : CdbRecord → Prop
  | location (addr : Bytes) {loc : Bytes} : loc.length = 2 → CdbRecord.Made ⟨0 :: 37 :: addr, loc⟩
  | name {owner : Name} (toLower : Bool) {type ttd loc rdata : Bytes} (ttl : Nat) : Valid owner →
      type.length = 2 → ttd.length = 8 → loc.length = 2 → Fits type rdata →
      CdbRecord.Made (rrFinish owner toLower (rrStart type ttl ttd loc ++ rdata))

theorem CdbRecord.Made.wellFormed {record : CdbRecord} (h : record.Made) :
    record.wellFormed = true := by
  cases h with
  | location addr _ => rfl
  | name toLower ttl valid two ttdEight locTwo _ =>
    exact rrFinish_wellFormed valid toLower two ttdEight locTwo ttl _

/-- The parts of a record that is stored under a name. -/
structure CdbRecord.Parts (record : CdbRecord) (q : Name) (t₀ t₁ ch : UInt8)
    (loc ttlstr ttd rdata : Bytes) : Prop where
  valid : Valid q
  key : record.key = wire q
  data : record.data = t₀ :: t₁ :: ch :: (loc ++ (ttlstr ++ (ttd ++ rdata)))
  location : loc.length = if located ch then 2 else 0
  four : ttlstr.length = 4
  eight : ttd.length = 8
  mark : ch ∈ [61, 62, 42, 43]
  fits : Fits [t₀, t₁] rdata

/-- The data of the record stands behind the fixed fields. -/
theorem CdbRecord.Parts.drop {record : CdbRecord} {q : Name} {t₀ t₁ ch : UInt8}
    {loc ttlstr ttd rdata : Bytes} (h : record.Parts q t₀ t₁ ch loc ttlstr ttd rdata) :
    record.data.drop (loc.length + 15) = rdata := by
  have hlen : loc.length + 15 = (t₀ :: t₁ :: ch :: (loc ++ (ttlstr ++ ttd))).length := by
    simp only [List.length_cons, List.length_append, h.four, h.eight]
  have hcat : t₀ :: t₁ :: ch :: (loc ++ (ttlstr ++ (ttd ++ rdata))) =
      (t₀ :: t₁ :: ch :: (loc ++ (ttlstr ++ ttd))) ++ rdata := by
    simp only [List.cons_append, List.append_assoc]
  rw [h.data, hcat, hlen, List.drop_left]

/-- **A record the compiler makes has all its parts.** -/
theorem CdbRecord.Made.parts {record : CdbRecord} (h : record.Made) :
    (∃ addr loc, record = ⟨0 :: 37 :: addr, loc⟩) ∨
      ∃ q t₀ t₁ ch loc ttlstr ttd rdata, record.Parts q t₀ t₁ ch loc ttlstr ttd rdata := by
  cases h with
  | location addr _ => exact .inl ⟨addr, _, rfl⟩
  | @name owner toLower type ttd loc rdata ttl valid two ttdEight locTwo fits =>
    right
    obtain ⟨t₀, t₁, rfl⟩ := List.length_eq_two.mp two
    obtain ⟨q, hq, hkey⟩ := rrFinish_key valid toLower (rrStart [t₀, t₁] ttl ttd loc ++ rdata)
    refine ⟨q, t₀, t₁, locationMark owner loc, if loc = [0, 0] then [] else loc, be32 ttl, ttd, rdata,
      hq, hkey, rrFinish_data owner toLower t₀ t₁ ttl ttd loc rdata, ?_, be32_length ttl, ttdEight,
      ?_, fits⟩
    · unfold locationMark
      split
      · split <;> rfl
      · split <;> exact locTwo
    · unfold locationMark
      split <;> split <;> decide

/-- A record that is made, and not under the key of a location. -/
structure CdbRecord.Filed (record : CdbRecord) : Prop where
  made : record.Made
  key : ∀ addr, record.key ≠ 0 :: 37 :: addr

theorem rrFinish_filed {owner : Name} (valid : Valid owner) (toLower : Bool) {type : Bytes}
    (two : type.length = 2) (ttl : Nat) (ttd loc : Bytes) {rdata : Bytes} (fits : Fits type rdata) :
    (rrFinish owner toLower (rrStart type ttl (ttdparse ttd) (locparse loc) ++ rdata)).Filed := by
  refine ⟨.name toLower ttl valid two (ttdparse_length ttd) (locparse_length loc) fits, ?_⟩
  intro addr h
  obtain ⟨q, hq, hkey⟩ := rrFinish_key valid toLower
    (rrStart type ttl (ttdparse ttd) (locparse loc) ++ rdata)
  have named := isLocation_wire hq.labels
  rw [← hkey, h] at named
  cases named

theorem rr_filed {owner : Name} (valid : Valid owner) {type : Bytes} (two : type.length = 2)
    (ttl : Nat) (ttd loc : Bytes) {rdata : Bytes} (fits : Fits type rdata) :
    (rr owner type ttl (ttdparse ttd) (locparse loc) rdata).Filed :=
  rrFinish_filed valid true two ttl ttd loc fits

theorem fromdot_valid {s : Bytes} {d : Name} (h : fromdot s = .ok d) : Valid d := by
  unfold fromdot at h
  split at h
  · cases h
  · rename_i hread
    cases h
    exact dnsDomainFromdot_valid hread

/-- Every record of a list is one that the compiler makes. -/
def AllMade (records : List CdbRecord) : Prop := ∀ record ∈ records, record.Made

theorem AllMade.append {records more : List CdbRecord} (h : AllMade records)
    (hmore : AllMade more) : AllMade (records ++ more) := by
  intro x hx
  rcases List.mem_append.mp hx with hx | hx
  · exact h x hx
  · exact hmore x hx

/-- Every record of a list is under a name. -/
def AllFiled (records : List CdbRecord) : Prop := ∀ record ∈ records, record.Filed

theorem AllFiled.made {records : List CdbRecord} (h : AllFiled records) : AllMade records :=
  fun record hrecord => (h record hrecord).made

theorem AllFiled.nil : AllFiled [] := fun _ h => absurd h List.not_mem_nil

theorem AllFiled.cons {record : CdbRecord} {records : List CdbRecord}
    (h : record.Filed) (rest : AllFiled records) : AllFiled (record :: records) := by
  intro x hx
  rcases List.mem_cons.mp hx with rfl | hx
  · exact h
  · exact rest x hx

theorem AllFiled.one {record : CdbRecord} (h : record.Filed) : AllFiled [record] := .cons h .nil

theorem AllFiled.append {records more : List CdbRecord} (h : AllFiled records)
    (hmore : AllFiled more) : AllFiled (records ++ more) := by
  intro x hx
  rcases List.mem_append.mp hx with hx | hx
  · exact h x hx
  · exact hmore x hx

theorem serverAddress_filed {owner : Name} (valid : Valid owner) (ttl : Nat)
    (ttd loc text : Bytes) :
    AllFiled (serverAddress owner ttl (ttdparse ttd) (locparse loc) text) := by
  unfold serverAddress
  split
  · exact .nil
  · exact .one (rr_filed valid rfl _ _ _ (.other (by decide) _))

/-- Short labels make a short name. -/
theorem span_le {n : Name} {k : Nat} (short : ∀ l ∈ n, l.length ≤ k) :
    span n ≤ n.length * (k + 1) := by
  induction n with
  | nil => exact Nat.zero_le _
  | cons l n ih =>
    have hl := short l List.mem_cons_self
    have hn := ih fun k hk => short k (List.mem_cons_of_mem _ hk)
    rw [span_cons, List.length_cons, Nat.succ_mul]
    omega

/-- A name of few short labels is a name that fits. -/
theorem valid_of_short {n : Name} {k : Nat} (labels : ∀ l ∈ n, l ≠ [] ∧ l.length ≤ k)
    (few : n.length * (k + 1) ≤ 254) (low : k ≤ 63) : Valid n := by
  refine ⟨fun l hl => ⟨(labels l hl).1, (labels l hl).2.trans low⟩, ?_⟩
  have := span_le fun l hl => (labels l hl).2
  omega

theorem dnsName4Domain_valid {ip : Bytes} (four : ip.length = 4) : Valid (dnsName4Domain ip) := by
  have hlabels : ∀ l ∈ dnsName4Domain ip, l ≠ [] ∧ l.length ≤ 7 := by
    intro l hl
    unfold dnsName4Domain at hl
    rcases List.mem_append.mp hl with hl | hl
    · obtain ⟨b, _, rfl⟩ := List.mem_map.mp hl
      exact ⟨decimal_ne_nil _, (decimal_length_le (b.toNat_lt.trans (by decide))).trans (by decide)⟩
    · rcases List.mem_cons.mp hl with rfl | hl
      · decide
      · rw [List.mem_singleton.mp hl]
        decide
  refine valid_of_short hlabels ?_ (by decide)
  simp only [dnsName4Domain, List.length_append, List.length_map, List.length_reverse, four,
    List.length_cons, List.length_nil]
  decide

theorem dnsName6Domain_valid {ip : Bytes} (sixteen : ip.length = 16) {last : String}
    (nonempty : ascii last ≠ []) (short : (ascii last).length ≤ 4) :
    Valid (dnsName6Domain ip last) := by
  have hlabels : ∀ l ∈ dnsName6Domain ip last, l ≠ [] ∧ l.length ≤ 4 := by
    intro l hl
    unfold dnsName6Domain at hl
    rcases List.mem_append.mp hl with hl | hl
    · obtain ⟨b, _, hl⟩ := List.mem_flatMap.mp hl
      rcases List.mem_cons.mp hl with rfl | hl
      · exact ⟨List.cons_ne_nil _ _, Nat.le_of_ble_eq_true rfl⟩
      · rw [List.mem_singleton.mp hl]
        exact ⟨List.cons_ne_nil _ _, Nat.le_of_ble_eq_true rfl⟩
    · rcases List.mem_cons.mp hl with rfl | hl
      · decide
      · rw [List.mem_singleton.mp hl]
        exact ⟨nonempty, short⟩
  refine valid_of_short hlabels ?_ (by decide)
  simp only [dnsName6Domain, List.length_append, List.length_flatMap, List.length_cons,
    List.length_nil, List.map_const', List.sum_replicate, List.length_reverse, sixteen]
  decide

theorem ip4Scan_length {s ip : Bytes} (h : ip4Scan s = some ip) : ip.length = 4 := by
  simp only [ip4Scan, Option.bind_eq_bind, Option.bind_eq_some_iff] at h
  obtain ⟨_, _, _, _, _, _, _, _, _, _, _, _, _, _, h⟩ := h
  cases h
  rfl

theorem hexPairs_length {n : Nat} {s ip : Bytes} (h : hexPairs n s = some ip) : ip.length = n := by
  induction n generalizing s ip with
  | zero =>
    unfold hexPairs at h
    cases h
    rfl
  | succ n ih =>
    rcases s with _ | ⟨_, _ | ⟨_, s⟩⟩
    · cases h
    · cases h
    · simp only [hexPairs, Option.bind_eq_bind, Option.bind_eq_some_iff] at h
      obtain ⟨_, _, _, _, _, hrest, h⟩ := h
      cases h
      rw [List.length_cons, ih hrest]

/-! ## Kinds of lines -/

theorem defaultsoa_length (env : Env) : env.defaultsoa.length = 20 := by
  unfold Env.defaultsoa
  split <;> rfl

theorem compileSoa_filed {env : Env} {f : Nat → Bytes} {records : List CdbRecord}
    (h : compileSoa env f = .ok records) : AllFiled records := by
  simp only [compileSoa, bind_eq_ok] at h
  obtain ⟨d1, hd1, mname, hm, rname, hr, h⟩ := h
  cases h
  refine .one (rr_filed (fromdot_valid hd1) rfl _ _ _ ?_)
  exact .ofSoa (fromdot_valid hm) (fromdot_valid hr).labels rfl

/-- The contact of a zone has the labels of a name. -/
theorem contact_labels {d : Name} (valid : Valid d) :
    ∀ l ∈ ascii "hostmaster" :: d, ValidLabel l := by
  intro l hl
  rcases List.mem_cons.mp hl with rfl | hl
  · exact ⟨by decide, by decide⟩
  · exact valid.labels l hl

theorem compileNs_filed {env : Env} {soa : Bool} {f : Nat → Bytes} {records : List CdbRecord}
    (h : compileNs env soa f = .ok records) : AllFiled records := by
  simp only [compileNs, bind_eq_ok] at h
  obtain ⟨d1, hd1, d2, hd2, h⟩ := h
  cases h
  have hvalid1 := fromdot_valid hd1
  have hvalid2 := fromdot_valid hd2
  apply AllFiled.append
  · split
    · refine .one (rr_filed hvalid1 rfl _ _ _ ?_)
      exact .ofSoa hvalid2 (contact_labels hvalid1) (defaultsoa_length env)
    · exact .nil
  · exact .cons (rr_filed hvalid1 rfl _ _ _ (.ofName (by decide) hvalid2))
      (serverAddress_filed hvalid2 _ _ _ _)

theorem compileA_filed {reverse : Bool} {f : Nat → Bytes} {records : List CdbRecord}
    (h : compileA reverse f = .ok records) : AllFiled records := by
  simp only [compileA, bind_eq_ok] at h
  obtain ⟨d1, hd1, h⟩ := h
  split at h
  · cases h
    exact .nil
  · rename_i ip hip
    cases h
    have hptr : Fits dnsTPtr (wire d1) := .ofName (by decide) (fromdot_valid hd1)
    apply AllFiled.cons (rr_filed (fromdot_valid hd1) rfl _ _ _ (.other (by decide) _))
    split
    · exact .one (rr_filed (dnsName4Domain_valid (ip4Scan_length hip)) rfl _ _ _ hptr)
    · exact .nil

theorem compileAaaa_filed {reverse : Bool} {f : Nat → Bytes} {records : List CdbRecord}
    (h : compileAaaa reverse f = .ok records) : AllFiled records := by
  simp only [compileAaaa, bind_eq_ok] at h
  obtain ⟨d1, hd1, h⟩ := h
  split at h
  · cases h
    exact .nil
  · rename_i ip hip
    cases h
    have hsixteen := hexPairs_length hip
    have hptr : Fits dnsTPtr (wire d1) := .ofName (by decide) (fromdot_valid hd1)
    apply AllFiled.cons (rr_filed (fromdot_valid hd1) rfl _ _ _ (.other (by decide) _))
    split
    · exact .cons (rr_filed (dnsName6Domain_valid hsixteen (by decide) (by decide)) rfl _ _ _ hptr)
        (.one (rr_filed (dnsName6Domain_valid hsixteen (by decide) (by decide)) rfl _ _ _ hptr))
    · exact .nil

theorem compileMx_filed {f : Nat → Bytes} {records : List CdbRecord}
    (h : compileMx f = .ok records) : AllFiled records := by
  simp only [compileMx, bind_eq_ok] at h
  obtain ⟨d1, hd1, d2, hd2, h⟩ := h
  cases h
  exact .cons (rr_filed (fromdot_valid hd1) rfl _ _ _ (.ofMx (be16_length _) (fromdot_valid hd2)))
    (serverAddress_filed (fromdot_valid hd2) _ _ _ _)

theorem compileSrv_filed {f : Nat → Bytes} {records : List CdbRecord}
    (h : compileSrv f = .ok records) : AllFiled records := by
  simp only [compileSrv, bind_eq_ok] at h
  obtain ⟨d1, hd1, d2, hd2, h⟩ := h
  split at h
  · cases h
  · cases h
    exact .cons (rr_filed (fromdot_valid hd1) rfl _ _ _ (.other (by decide) _))
      (serverAddress_filed (fromdot_valid hd2) _ _ _ _)

theorem compileName_filed {type : Bytes} (two : type.length = 2)
    (plain : type ≠ dnsTMx ∧ type ≠ dnsTSoa) {f : Nat → Bytes}
    {records : List CdbRecord} (h : compileName type f = .ok records) : AllFiled records := by
  simp only [compileName, bind_eq_ok] at h
  obtain ⟨d1, hd1, d2, hd2, h⟩ := h
  cases h
  exact .one (rr_filed (fromdot_valid hd1) two _ _ _ (.ofName plain (fromdot_valid hd2)))

theorem compileTxt_filed {f : Nat → Bytes} {records : List CdbRecord}
    (h : compileTxt f = .ok records) : AllFiled records := by
  simp only [compileTxt, bind_eq_ok] at h
  obtain ⟨d1, hd1, h⟩ := h
  cases h
  exact .one (rr_filed (fromdot_valid hd1) rfl _ _ _ (.other (by decide) _))

theorem compileTlsa_filed {env : Env} {f : Nat → Bytes} {records : List CdbRecord}
    (h : compileTlsa env f = .ok records) : AllFiled records := by
  simp only [compileTlsa, bind_eq_ok] at h
  obtain ⟨_, _, d2, hd2, h⟩ := h
  cases h
  exact .one (rr_filed (fromdot_valid hd2) rfl _ _ _ (.other (by decide) _))

/-- A type that is not prohibited has no name in its data. -/
theorem not_named_of_allowed {type : Bytes} (h : prohibited.lookup type = none) :
    type ∉ [dnsTNs, dnsTPtr, dnsTCname, dnsTMx, dnsTSoa] := by
  intro hmem
  simp only [List.mem_cons, List.not_mem_nil, or_false] at hmem
  rcases hmem with rfl | rfl | rfl | rfl | rfl <;> exact absurd h (by decide)

theorem compileGeneric_filed {f : Nat → Bytes} {records : List CdbRecord}
    (h : compileGeneric f = .ok records) : AllFiled records := by
  simp only [compileGeneric, bind_eq_ok] at h
  obtain ⟨d1, hd1, h⟩ := h
  split at h
  · cases h
  · rename_i hallowed
    cases h
    exact .one (rrFinish_filed (fromdot_valid hd1) _ (be16_length _) _ _ _
      (.other (not_named_of_allowed hallowed) _))

/-- Only `%` lines make records of locations. -/
theorem compileKind_filed {env : Env} {kind : UInt8} {f : Nat → Bytes}
    {records : List CdbRecord} (other : kind ≠ 37) (h : compileKind env kind f = .ok records) :
    AllFiled records := by
  unfold compileKind at h
  split at h
  · cases h; exact .nil
  · cases h; exact .nil
  · exact absurd rfl other
  · exact compileSoa_filed h
  · exact compileNs_filed h
  · exact compileNs_filed h
  · exact compileA_filed h
  · exact compileA_filed h
  · exact compileAaaa_filed h
  · exact compileAaaa_filed h
  · exact compileMx_filed h
  · exact compileSrv_filed h
  · exact compileName_filed rfl (by decide) h
  · exact compileName_filed rfl (by decide) h
  · exact compileTxt_filed h
  · exact compileTlsa_filed h
  · exact compileGeneric_filed h
  · cases h

theorem compileKind_made {env : Env} {kind : UInt8} {f : Nat → Bytes}
    {records : List CdbRecord} (h : compileKind env kind f = .ok records) : AllMade records := by
  by_cases percent : kind = 37
  · subst percent
    cases h
    intro record hrecord
    rw [List.mem_singleton.mp hrecord]
    exact .location _ (locparse_length _)
  · exact (compileKind_filed percent h).made

theorem compileLines_made {env : Env} {lines : List Bytes} {records : List CdbRecord}
    (h : compileLines env lines = .ok records) : AllMade records := by
  induction lines generalizing records with
  | nil =>
    cases h
    exact AllFiled.nil.made
  | cons line lines ih =>
    simp only [compileLines, bind_eq_ok] at h
    obtain ⟨first, hfirst, more, hmore, h⟩ := h
    cases h
    apply AllMade.append _ (ih hmore)
    unfold compileLine at hfirst
    split at hfirst
    · cases hfirst
      exact AllFiled.nil.made
    · exact compileKind_made hfirst

/-- **`tinydns-data` makes databases.** -/
def Database.ofFile {env : Env} {text : Bytes} {records : List CdbRecord}
    (h : compileFile env text = .ok records) : Database :=
  ⟨records, fun record hrecord => (compileLines_made h record hrecord).wellFormed⟩

end TinyDnssec.Data
