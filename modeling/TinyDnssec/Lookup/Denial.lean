import TinyDnssec.Lookup.Emit

/-!
# Denial of existence

`addNSEC3`, `addNSEC3Cover` and `addClosestEncloserProof` of `tdlookup.c`, and `base32hex.c`.

The NSEC3 records stand under hashed names. A name's own hashed name is the target of its HASHREF
record; the hashed name that covers another is looked up in a bucket of sorted hashes, a HASHLIST
record. The digests are computed here with the parameters of the zone's NSEC3PARAM record.

`addNSEC3Cover` lowers the name it is given in place. The zone's name is a tail of the same
string, so it is lowered along, as far as it lies in the name (`lowerTail`).
-/

namespace TinyDnssec.Lookup

open Octets Loop

/-! ## `base32hex.c` -/

def to32hex (c : Nat) : UInt8 := if c < 10 then UInt8.ofNat (c + 48) else UInt8.ofNat (c + 87)

/-- The digits that `while (bits >= 5)` writes; it leaves `bits % 5` bits. -/
def base32Digits (buf : Nat) : Nat → Bytes
  | bits + 5 => to32hex (buf >>> bits % 32) :: base32Digits buf bits
  | _ => []

def base32hexGo : Nat → Nat → Bytes → Bytes
  | buf, bits, [] => if bits > 0 then [to32hex (buf <<< (5 - bits) % 32)] else []
  | buf, bits, b :: s =>
    let buf := buf <<< 8 ||| b.toNat
    base32Digits buf (bits + 8) ++ base32hexGo buf ((bits + 8) % 5) s

def base32hex (s : Bytes) : Bytes := base32hexGo 0 0 s

/-! ## Records that point elsewhere -/

/-- An RRSIG record over records of this type. -/
def Found.signs (f : Found) (covered : Bytes) : Bool :=
  decide (f.type = dnsTRrsig) && decide (f.data.length > f.dpos + 18) &&
    decide (f.rdata.take 2 = covered)

/-- The name a HASHREF record refers to; the inner `none` is one that cannot be read. -/
def hashref (f : Found) : Option (Option Name) :=
  if f.type = dnsTHashref ∧ f.data.length > f.dpos then
    some ((dnsPacketGetname f.data f.dpos).map Prod.fst)
  else none

/-- One record of the loop in `addNSEC3`. -/
def Env.nsec3Step (env : Env) (hashName : Name) (f : Found) (r : Response) : Build :=
  if f.type = dnsTNsec3 then emit hashName [.rest] .authority f r
  else if env.doDnssec && f.signs dnsTNsec3 then emit hashName rrsigShape .authority f r
  else .ok r

def Env.addNSEC3 (env : Env) (hashName : Name) (r : Response) : Build :=
  if want hashName dnsTNsec3 r then
    each id (env.nsec3Step hashName) (env.find hashName false) r
  else .ok r

/-! ## Covering records -/

structure HashParams where
  iterations : Nat
  salt : Bytes

/-- The parameters of an NSEC3PARAM record that can be used. The length of the salt is a signed
octet: from 128 on it is negative, and as an unsigned number longer than any record. -/
def hashParams (f : Found) : Option HashParams :=
  let algo := f.rdata.getD 0 0
  let flags := f.rdata.getD 1 0
  let saltlen := (f.rdata.getD 4 0).toNat
  if f.type = dnsTNsec3param ∧ f.data.length - f.dpos > 5 then
    if algo ≠ 1 ∨ flags ≠ 0 ∨ saltlen ≥ 128 ∨ f.data.length - f.dpos - 5 < saltlen then none
    else some ⟨unbe ((f.rdata.drop 2).take 2), (f.rdata.drop 5).take saltlen⟩
  else none

/-- The salt is shorter than 128 octets. -/
theorem hashParams_salt {f : Found} {p : HashParams} (usable : hashParams f = some p) :
    p.salt.length ≤ 127 := by
  unfold hashParams at usable
  simp only at usable
  split at usable
  · split at usable
    · cases usable
    · rename_i good
      obtain rfl := Option.some_inj.mp usable
      rw [List.length_take]
      omega
  · cases usable

/-- The digest of a name, or with `wild` of the wildcard below it. -/
def Env.digest (env : Env) (p : HashParams) (wild : Bool) (name : Name) : Bytes :=
  (fun digest => env.sha1 (digest ++ p.salt))^[p.iterations]
    (env.sha1 ((if wild then [1, 42] else []) ++ wire name ++ p.salt))

/-- `(digest[0] >> 4) + 'A'` -/
def nibbleLabel (digest : Bytes) : Label := [(digest.headD 0 >>> 4) + 65]

/-- The twenty octets at a position. -/
def hashAt (buf : Bytes) (hpos : Nat) : Bytes := (buf.drop hpos).take 20

theorem hashAt_append {buf more : Bytes} {pos : Nat} (inside : pos + 20 ≤ buf.length) :
    hashAt (buf ++ more) pos = hashAt buf pos := by
  unfold hashAt
  rw [List.drop_append_of_le_length (by omega), List.take_append_of_le_length]
  rw [List.length_drop]
  omega

/-- The walk along a bucket: while the digest is greater than the hash at `hpos`. Behind the record
the buffer is read too, but there the walk ends in any case. -/
def bucketWalk (buf : Bytes) (dlen : Nat) (digest : Bytes) : Nat → Nat → Nat
  | 0, hpos => hpos
  | rounds + 1, hpos =>
    if hashAt buf hpos < digest ∧ hpos < dlen then bucketWalk buf dlen digest rounds (hpos + 20)
    else hpos

/-- The hash in front of the one where the walk ends. -/
def Env.covering (env : Env) (digest : Bytes) (f : Found) : Option Bytes :=
  if f.type = dnsTHashlist ∧ f.data.length - f.dpos ≥ 20 then
    let buf := f.data ++ env.stale f.data
    let hpos := bucketWalk buf f.data.length digest f.data.length (f.dpos + 20)
    some (hashAt buf (hpos - 20))
  else none

/-- A name of which the last labels are lowered. -/
def lowerTail (labels : Nat) (d : Name) : Name :=
  d.take (d.length - labels) ++ lowerName (d.drop (d.length - labels))

def Env.addNSEC3Cover (env : Env) (name control : Name) (wild : Bool) (r : Response) : Build :=
  match first hashParams (env.find control false) with
  | some (some p) =>
    let control := lowerTail name.length control
    let digest := env.digest p wild (lowerName name)
    match first (env.covering digest) (env.find (nibbleLabel digest :: control) false) with
    | some (some hash) => env.addNSEC3 (base32hex hash :: control) r
    | _ => .error r
  | _ => .error r

/-! ## The closest encloser -/

/-- The walk of `addClosestEncloserProof` from `q` upwards: the first name with a HASHREF record, the
name the walk was at before, and the target. The root is not looked at. -/
def Env.encloser (env : Env) : Name → Name → Option (Name × Name × Name)
  | _, [] => none
  | name, l :: up =>
    match first hashref (env.find (l :: up) false) with
    | some (some (some hashName)) => some (name, l :: up, hashName)
    | some none => env.encloser (l :: up) up
    | _ => none

def Env.addClosestEncloserProof (env : Env) (name control : Name) (includeWild : Bool)
    (r : Response) : Build :=
  match env.encloser name name with
  | none => .error r
  | some (name, q, hashName) => do
    let r ← env.addNSEC3 hashName r
    if includeWild then
      let r ← env.addNSEC3Cover q control true r
      env.addNSEC3Cover (lowerTail q.length name) (lowerTail q.length control) false r
    else env.addNSEC3Cover name control false r

/-! ## Hashed names -/

theorem base32Digits_length (buf bits : Nat) : (base32Digits buf bits).length = bits / 5 := by
  induction bits using base32Digits.induct with
  | case1 bits ih =>
    unfold base32Digits
    rw [List.length_cons, ih]
    omega
  | case2 bits hsmall =>
    have hlt : bits < 5 := by
      by_contra hge
      exact hsmall (bits - 5) (by omega)
    unfold base32Digits
    split
    · omega
    · rw [List.length_nil]
      omega

theorem base32hexGo_length {buf bits : Nat} (few : bits < 5) (s : Bytes) :
    (base32hexGo buf bits s).length = (bits + 8 * s.length + 4) / 5 := by
  induction s generalizing buf bits with
  | nil =>
    unfold base32hexGo
    rw [List.length_nil]
    split
    · rw [List.length_singleton]
      omega
    · rw [List.length_nil]
      omega
  | cons b s ih =>
    unfold base32hexGo
    simp only []
    rw [List.length_append, base32Digits_length, ih (Nat.mod_lt _ (by decide)), List.length_cons]
    omega

/-- A hash of at most twenty octets makes a label. -/
theorem base32hex_label {s : Bytes} (nonempty : s ≠ []) (short : s.length ≤ 20) :
    ValidLabel (base32hex s) := by
  have hlen := @base32hexGo_length 0 0 (by decide) s
  have hpos := List.length_pos_iff.mpr nonempty
  unfold base32hex
  refine ⟨List.ne_nil_of_length_pos (by omega), by omega⟩

theorem bucketWalk_lt {buf : Bytes} {dlen : Nat} {digest : Bytes} {rounds hpos : Nat}
    (inside : hpos < dlen + 20) : bucketWalk buf dlen digest rounds hpos < dlen + 20 := by
  induction rounds generalizing hpos with
  | zero => exact inside
  | succ rounds ih =>
    unfold bucketWalk
    split
    · rename_i hgo
      exact ih (by omega)
    · exact inside

/-- What a bucket answers is part of a record, so it makes a label. -/
theorem covering_label {env : Env} {digest hash : Bytes} {f : Found}
    (h : env.covering digest f = some hash) : ValidLabel (base32hex hash) := by
  unfold Env.covering at h
  split at h
  · rename_i hlist
    cases h
    generalize hwalk : bucketWalk (f.data ++ env.stale f.data) f.data.length digest f.data.length
      (f.dpos + 20) = hpos
    have hlt : hpos < f.data.length + 20 := hwalk ▸ bucketWalk_lt (by omega)
    unfold hashAt
    apply base32hex_label
    · apply List.ne_nil_of_length_pos
      rw [List.length_take, List.length_drop, List.length_append]
      omega
    · rw [List.length_take]
      omega
  · cases h

theorem labels_lowerTail {d : Name} (labels : ∀ l ∈ d, ValidLabel l) (n : Nat) :
    ∀ l ∈ lowerTail n d, ValidLabel l := by
  intro l hl
  unfold lowerTail at hl
  rcases List.mem_append.mp hl with hl | hl
  · exact labels l (List.mem_of_mem_take hl)
  · unfold lowerName at hl
    obtain ⟨k, hk, rfl⟩ := List.mem_map.mp hl
    exact (labels k (List.mem_of_mem_drop hk)).lower

/-! ## What `addNSEC3` adds -/

section

variable {env : Env}

/-- What one record under a hashed name adds: NSEC3 records and the signatures over them. -/
def Env.nsec3Entries (env : Env) (hashName : Name) (f : Found) : List Entry :=
  if f.type = dnsTNsec3 then (entryOf hashName [.rest] f).toList
  else if env.doDnssec && f.signs dnsTNsec3 then (entryOf hashName rrsigShape f).toList
  else []

/-- The NSEC3 records of a hashed name with their signatures. -/
def Env.nsec3Set (env : Env) (hashName : Name) : List Entry :=
  (env.visible hashName false).flatMap (env.nsec3Entries hashName)

theorem nsec3Step_emits {hashName : Name} (valid : Valid hashName) {f : Found}
    (two : f.type.length = 2) {r r' : Response} (h : env.nsec3Step hashName f r = .ok r') :
    Emits .authority (env.nsec3Entries hashName f) r r' := by
  unfold Env.nsec3Step at h
  unfold Env.nsec3Entries
  split at h
  · rename_i htype
    rw [if_pos htype]
    exact emit_toList valid two h
  · rename_i htype
    rw [if_neg htype]
    split at h
    · rename_i hsigns
      rw [if_pos hsigns]
      exact emit_toList valid two h
    · rename_i hsigns
      rw [if_neg hsigns]
      cases h
      exact .refl _ _

/-- **`addNSEC3` adds the NSEC3 records of a hashed name, with their signatures, once.** -/
theorem addNSEC3_spec {hashName : Name} (labels : ∀ l ∈ hashName, ValidLabel l) {r r' : Response}
    (h : env.addNSEC3 hashName r = .ok r') :
    (want hashName dnsTNsec3 r = false ∧ r' = r) ∨
      (want hashName dnsTNsec3 r = true ∧ none ∉ env.find hashName false ∧
        Emits .authority (env.nsec3Set hashName) r r') := by
  unfold Env.addNSEC3 at h
  split at h
  · rename_i hwant
    have hstep : ∀ f t t', some f ∈ env.find hashName false → env.nsec3Step hashName f t = .ok t' →
        Emits .authority (env.nsec3Entries hashName f) t t' := by
      intro f t t' hmem hbody
      exact nsec3Step_emits (valid_of_find labels (List.ne_nil_of_mem hmem))
        (found_read labels hmem).typeOctets hbody
    obtain ⟨fs, hfs, hemits⟩ := each_emits hstep h
    refine .inr ⟨hwant, ?_, ?_⟩
    · rw [hfs]
      intro hnone
      obtain ⟨_, _, hbad⟩ := List.mem_map.mp hnone
      cases hbad
    · unfold Env.nsec3Set
      rw [visible_eq hfs]
      exact hemits
  · rename_i hwant
    cases h
    exact .inl ⟨(Bool.not_eq_true _).mp hwant, rfl⟩

/-! ## What `addNSEC3Cover` adds -/

/-- **Where `addNSEC3Cover` succeeds**, the zone has usable parameters, the bucket of the digest has a
hash in front of it, and the NSEC3 records of that hash are added. -/
theorem addNSEC3Cover_spec {name control : Name} {wild : Bool} {r r' : Response}
    (h : env.addNSEC3Cover name control wild r = .ok r') :
    ∃ p hash, first hashParams (env.find control false) = some (some p) ∧
      first (env.covering (env.digest p wild (lowerName name)))
        (env.find (nibbleLabel (env.digest p wild (lowerName name)) ::
          lowerTail name.length control) false) = some (some hash) ∧
      env.addNSEC3 (base32hex hash :: lowerTail name.length control) r = .ok r' := by
  unfold Env.addNSEC3Cover at h
  split at h
  · rename_i p hp
    simp only [] at h
    split at h
    · rename_i hash hhash
      exact ⟨p, hash, hp, hhash, h⟩
    · cases h
  · cases h

/-- The hashed name a bucket leads to is made of labels. -/
theorem covering_labels {digest hash : Bytes} {d control : Name} {n : Nat}
    (labels : ∀ l ∈ control, ValidLabel l)
    (h : first (env.covering digest) (env.find d false) = some (some hash)) :
    ∀ l ∈ base32hex hash :: lowerTail n control, ValidLabel l := by
  obtain ⟨_, _, _, _, _, hcovering⟩ := first_eq_some h
  intro l hl
  rcases List.mem_cons.mp hl with rfl | hl
  · exact covering_label hcovering
  · exact labels_lowerTail labels n l hl

/-! ## What `addClosestEncloserProof` adds -/

theorem hashref_valid {f : Found} {n : Name} (h : hashref f = some (some n)) : Valid n := by
  unfold hashref at h
  split at h
  · obtain ⟨⟨_, _⟩, hread, rfl⟩ := Option.map_eq_some_iff.mp (Option.some_inj.mp h)
    exact dnsPacketGetname_valid hread
  · cases h

/-- The walk upwards ends at a tail of the name, at a name with a HASHREF record. -/
theorem encloser_spec {name q name' q' hashName : Name}
    (h : env.encloser name q = some (name', q', hashName)) :
    q' <:+ q ∧ first hashref (env.find q' false) = some (some (some hashName)) ∧
      (name' = name ∧ q' = q ∨ ∃ l, name' = l :: q' ∧ name' <:+ q) := by
  induction q generalizing name with
  | nil => cases h
  | cons l up ih =>
    unfold Env.encloser at h
    split at h
    · rename_i hfirst
      cases h
      exact ⟨List.suffix_refl _, hfirst, .inl ⟨rfl, rfl⟩⟩
    · obtain ⟨hsuffix, hfound, hwhere⟩ := ih h
      refine ⟨hsuffix.trans (List.suffix_cons l up), hfound, .inr ?_⟩
      rcases hwhere with ⟨rfl, rfl⟩ | ⟨k, hk, hin⟩
      · exact ⟨l, rfl, List.suffix_refl _⟩
      · exact ⟨k, hk, hin.trans (List.suffix_cons l up)⟩
    · cases h

theorem encloser_target {name q name' q' hashName : Name}
    (h : env.encloser name q = some (name', q', hashName)) : Valid hashName := by
  obtain ⟨_, hfirst, _⟩ := encloser_spec h
  obtain ⟨_, _, _, _, _, hhashref⟩ := first_eq_some hfirst
  exact hashref_valid hhashref

end

end TinyDnssec.Lookup
