import TinyDnssec.Base.Cyclic
import TinyDnssec.Base32
import TinyDnssec.Respond

/-!
# The search for a covering hash

A HASHLIST record has the hash that stands in front of a bucket, and the hashes of the bucket in
ascending order. The loop of `addNSEC3Cover` goes along them as long as they are smaller than a digest,
and then steps back by one. What it takes is what `Cyclic.search` finds.

`Env.addNSEC3CoverChecked` is the same function once more with its memory: the array `salt`, which is
the salt, then the name of the bucket and at last the hashed name, and the octets of the record in hand.
It stops at the first access outside of these.

Who made the list, and that it is sorted, is not said here; `Sign.Hashlists` has that for the signer's.
`checked_answer` says that the function with its memory answers what the other one does, where it does not stop.
-/

namespace TinyDnssec.Lookup

open Octets Loop

/-! ## The loop -/

/-- The condition of the loop at a position. -/
def Goes (buf : Bytes) (dlen : Nat) (digest : Bytes) (hpos : Nat) : Prop :=
  hashAt buf hpos < digest ∧ hpos < dlen

/-- The loop makes `n` turns from a position on, and then stops. -/
structure Stops (buf : Bytes) (dlen : Nat) (digest : Bytes) (hpos n : Nat) : Prop where
  turns : ∀ i < n, Goes buf dlen digest (hpos + 20 * i)
  stopped : ¬ Goes buf dlen digest (hpos + 20 * n)

section

variable {buf : Bytes} {dlen : Nat} {digest : Bytes} {hpos n : Nat}

/-- The loop always stops, at the latest behind the record. -/
theorem exists_stops (buf : Bytes) (dlen : Nat) (digest : Bytes) (hpos : Nat) :
    ∃ n, Stops buf dlen digest hpos n ∧ n ≤ (dlen - hpos + 19) / 20 := by
  classical
  have ends : ∃ n, ¬ Goes buf dlen digest (hpos + 20 * n) := by
    refine ⟨(dlen - hpos + 19) / 20, fun goes => ?_⟩
    have inside := goes.2
    omega
  refine ⟨Nat.find ends, ⟨fun i hi => not_not.mp (Nat.find_min ends hi), Nat.find_spec ends⟩, ?_⟩
  apply Nat.find_min'
  intro goes
  have inside := goes.2
  omega

theorem Stops.tail (h : Stops buf dlen digest hpos (n + 1)) : Stops buf dlen digest (hpos + 20) n := by
  constructor
  · intro i hi
    have goes := h.turns (i + 1) (Nat.succ_lt_succ hi)
    rwa [Nat.mul_succ, ← Nat.add_assoc, Nat.add_right_comm] at goes
  · have stopped := h.stopped
    rwa [Nat.mul_succ, ← Nat.add_assoc, Nat.add_right_comm] at stopped

/-- With enough rounds, the walk is the loop. -/
theorem Stops.bucketWalk (h : Stops buf dlen digest hpos n) {rounds : Nat} (enough : n ≤ rounds) :
    bucketWalk buf dlen digest rounds hpos = hpos + 20 * n := by
  induction rounds generalizing hpos n with
  | zero =>
    rw [Nat.le_zero.mp enough]
    rfl
  | succ rounds ih =>
    unfold Lookup.bucketWalk
    cases n with
    | zero =>
      have stays : ¬ (hashAt buf hpos < digest ∧ hpos < dlen) := h.stopped
      rw [if_neg stays]
      rfl
    | succ n =>
      have goes : hashAt buf hpos < digest ∧ hpos < dlen := h.turns 0 (Nat.succ_pos n)
      rw [if_pos goes, ih h.tail (Nat.le_of_succ_le_succ enough)]
      omega

/-- The walk over whole hashes finds what the search of the list finds, in front of where it ends. -/
theorem bucketWalk_search {cur more : Bytes} {hs : List Bytes} (len : cur.length = 20)
    (lens : ∀ h ∈ hs, h.length = 20) {pos : Nat} (layout : buf.drop pos = cur ++ (hs.flatten ++ more))
    (stop : dlen = pos + 20 + 20 * hs.length) {rounds : Nat} (enough : hs.length ≤ rounds) :
    hashAt buf (bucketWalk buf dlen digest rounds (pos + 20) - 20) = Cyclic.search digest cur hs := by
  have here : hashAt buf (pos + 20 - 20) = cur := by
    unfold hashAt
    rw [Nat.add_sub_cancel, layout, ← len, List.take_left]
  have behind : buf.drop (pos + 20) = hs.flatten ++ more := by
    rw [← List.drop_drop, layout, ← len, List.drop_left]
  induction hs generalizing cur pos rounds with
  | nil =>
    have out : ¬ (hashAt buf (pos + 20) < digest ∧ pos + 20 < dlen) := by
      rw [stop, List.length_nil]
      omega
    have stays : bucketWalk buf dlen digest rounds (pos + 20) = pos + 20 := by
      cases rounds with
      | zero => rfl
      | succ rounds =>
        unfold bucketWalk
        rw [if_neg out]
    rw [stays, here]
    rfl
  | cons x hs ih =>
    rw [List.length_cons] at stop enough
    rw [List.flatten_cons, List.append_assoc] at behind
    have size := lens x List.mem_cons_self
    have next : hashAt buf (pos + 20) = x := by
      unfold hashAt
      rw [behind, ← size, List.take_left]
    have inside : pos + 20 < dlen := by omega
    obtain ⟨rounds, rfl⟩ := Nat.exists_eq_succ_of_ne_zero (show rounds ≠ 0 by omega)
    unfold bucketWalk Cyclic.search
    rw [next]
    by_cases smaller : x < digest
    · rw [if_pos ⟨smaller, inside⟩, if_pos smaller]
      refine ih size (fun h hh => lens h (List.mem_cons_of_mem x hh)) behind (by omega)
        (Nat.le_of_succ_le_succ enough) ?_ ?_
      · rw [Nat.add_sub_cancel, next]
      · rw [← List.drop_drop, behind, ← size, List.drop_left]
    · rw [if_neg fun goes => smaller goes.1, if_neg smaller, here]

end

/-- The data of a HASHLIST record: the hash in front of a bucket, and the hashes of the bucket. -/
structure Bucket (f : Found) (pred : Bytes) (hs : List Bytes) : Prop where
  type : f.type = dnsTHashlist
  rdata : f.rdata = pred ++ hs.flatten
  predOctets : pred.length = 20
  octets : ∀ h ∈ hs, h.length = 20

theorem flatten_length {hs : List Bytes} (octets : ∀ h ∈ hs, h.length = 20) :
    hs.flatten.length = 20 * hs.length := by
  induction hs with
  | nil => rfl
  | cons h hs ih =>
    rw [List.flatten_cons, List.length_append, octets h List.mem_cons_self,
      ih fun k hk => octets k (List.mem_cons_of_mem h hk), List.length_cons]
    omega

theorem Bucket.data_length {f : Found} {pred : Bytes} {hs : List Bytes} (h : Bucket f pred hs) :
    f.data.length = f.dpos + 20 + 20 * hs.length := by
  have size := congrArg List.length h.rdata
  rw [List.length_append, flatten_length h.octets, h.predOctets] at size
  unfold Found.rdata at size
  rw [List.length_drop] at size
  omega

/-- The loop of `addNSEC3Cover` is the search of the list. -/
theorem covering_search {env : Env} {f : Found} {pred : Bytes} {hs : List Bytes} (h : Bucket f pred hs)
    (digest : Bytes) : env.covering digest f = some (Cyclic.search digest pred hs) := by
  have size := h.data_length
  have layout : (f.data ++ env.stale f.data).drop f.dpos =
      pred ++ (hs.flatten ++ env.stale f.data) := by
    have rdata : f.data.drop f.dpos = pred ++ hs.flatten := h.rdata
    rw [List.drop_append_of_le_length (by omega), rdata, List.append_assoc]
  unfold Env.covering
  rw [if_pos ⟨h.type, by omega⟩]
  exact congrArg some (bucketWalk_search h.predOctets h.octets layout size (by omega))

/-- The search of an ascending list takes the last element below, or the one in front of the list. -/
theorem search_last {pred digest : Bytes} {hs : List Bytes} (ascending : hs.Pairwise (· < ·))
    (fresh : digest ∉ hs) :
    (∃ before behind, pred :: hs = before ++ Cyclic.search digest pred hs :: behind ∧
        Cyclic.search digest pred hs < digest ∧ ∀ h ∈ behind, digest < h) ∨
      Cyclic.search digest pred hs = pred ∧ ∀ h ∈ hs, digest < h := by
  have above {h : Bytes} (hh : h ∈ hs) (notBelow : ¬ h < digest) : digest < h :=
    lt_of_le_of_ne (not_lt.mp notBelow) fun same => fresh (same ▸ hh)
  rcases Cyclic.search_spec ascending with ⟨same, none⟩ | ⟨mem, below, top⟩
  · exact .inr ⟨same, fun h hh => above hh (none h hh)⟩
  · left
    generalize Cyclic.search digest pred hs = found at mem below top ⊢
    obtain ⟨before, behind, rfl⟩ := List.append_of_mem mem
    refine ⟨pred :: before, behind, rfl, below, ?_⟩
    intro h hh
    have listed : h ∈ before ++ found :: behind :=
      List.mem_append_right _ (List.mem_cons_of_mem found hh)
    apply above listed
    intro smaller
    have order := (List.pairwise_cons.mp (List.pairwise_append.mp ascending).2.1).1 h hh
    exact absurd (top h listed smaller) (not_le.mpr order)

/-- **The search in a bucket.** The loop stops, and steps back to the last hash smaller than the digest,
or to the hash in front of the bucket, when the digest is smaller than all that follow. -/
theorem bucket_search {env : Env} {f : Found} {pred digest : Bytes} {hs : List Bytes}
    (bucket : Bucket f pred hs) (ascending : hs.Pairwise (· < ·)) (fresh : digest ∉ pred :: hs) :
    ∃ n hash, Stops (f.data ++ env.stale f.data) f.data.length digest (f.dpos + 20) n ∧
      (∀ rounds, n ≤ rounds → bucketWalk (f.data ++ env.stale f.data) f.data.length digest rounds
        (f.dpos + 20) = f.dpos + 20 + 20 * n) ∧
      hashAt (f.data ++ env.stale f.data) (f.dpos + 20 + 20 * n - 20) = hash ∧
      env.covering digest f = some hash ∧
      ((∃ before behind, pred :: hs = before ++ hash :: behind ∧ hash < digest ∧
          ∀ h ∈ behind, digest < h) ∨
        hash = pred ∧ ∀ h ∈ hs, digest < h) := by
  obtain ⟨n, stops, few⟩ :=
    exists_stops (f.data ++ env.stale f.data) f.data.length digest (f.dpos + 20)
  have size := bucket.data_length
  have found := @covering_search env _ _ _ bucket digest
  have walked : env.covering digest f =
      some (hashAt (f.data ++ env.stale f.data) (f.dpos + 20 + 20 * n - 20)) := by
    unfold Env.covering
    rw [if_pos ⟨bucket.type, by omega⟩]
    simp only []
    rw [stops.bucketWalk (by omega)]
  refine ⟨n, Cyclic.search digest pred hs, stops, fun rounds => stops.bucketWalk, ?_, found,
    search_last ascending fun listed => fresh (List.mem_cons_of_mem pred listed)⟩
  exact Option.some_inj.mp (walked.symm.trans found)

/-- A bucket of two hashes. -/
def twoHashes : Found where
  type := dnsTHashlist
  ttl := 3600
  data := List.replicate 15 0 ++ (List.replicate 20 5 ++ (List.replicate 20 16 ++ List.replicate 20 32))
  dpos := 15

theorem bucket_search_twoHashes :
    ∃ n hash, Stops twoHashes.data 75 (List.replicate 20 24) 35 n ∧
      (Env.of ⟨[], fun _ h => absurd h List.not_mem_nil⟩ true).covering (List.replicate 20 24)
        twoHashes = some hash := by
  have bucket : Bucket twoHashes (List.replicate 20 5) [List.replicate 20 16, List.replicate 20 32] := by
    refine ⟨rfl, by decide, rfl, ?_⟩
    intro h hh
    rcases List.mem_pair.mp hh with rfl | rfl <;> rfl
  obtain ⟨n, hash, stops, -, -, found, -⟩ :=
    @bucket_search (Env.of ⟨[], fun _ h => absurd h List.not_mem_nil⟩ true) _ _
      (List.replicate 20 24) _ bucket (by decide) (by decide)
  refine ⟨n, hash, ?_, found⟩
  have alone : twoHashes.data ++ [] = twoHashes.data := List.append_nil _
  exact alone ▸ stops

/-! ## The memory of `addNSEC3Cover` -/

/-- The octets of the record in hand, or of what lies around it. -/
def readAt (f : Found) (pos len : Nat) : Except Halt Bytes :=
  if f.dpos ≤ pos ∧ pos + len ≤ f.data.length then .ok ((f.data.drop pos).take len)
  else .error .outside

/-- The loop: the hash is compared before the position is tested. -/
def bucketSearch (f : Found) (digest : Bytes) (hpos : Nat) : Except Halt Nat :=
  match readAt f hpos 20 with
  | .error e => .error e
  | .ok hash =>
    if hash < digest ∧ hpos < f.data.length then bucketSearch f digest (hpos + 20)
    else .ok hpos
termination_by f.data.length - hpos
decreasing_by omega

/-- A record the loop is run on. -/
def hashlist (f : Found) : Option Found :=
  if f.type = dnsTHashlist ∧ f.data.length - f.dpos ≥ 20 then some f else none

/-- `base32hex(buf + pos,…)` -/
def hexInto {n : Nat} (pos : Nat) (hash : Bytes) (b : Buffer n) : Except Halt (Buffer n × Nat) :=
  let (out, len) := Base32.base32hex (b.bytes.drop pos) hash
  if pos + len ≤ n then (b.copy pos (out.take len)).map fun b => (b, len) else .error .outside

/-- `salt` with the name of the bucket. -/
def bucketName (digest : Bytes) (control : Name) (salt : Buffer 255) : Except Halt (Buffer 255) := do
  let salt ← salt.copy 0 [1]
  let salt ← salt.copy 1 [(digest.headD 0 >>> 4) + 65]
  salt.copy 2 (wire control)

/-- `salt` with the hashed name. -/
def hashedName (hash : Bytes) (control : Name) (salt : Buffer 255) : Except Halt (Buffer 255) := do
  let (salt, len) ← hexInto 1 hash salt
  let salt ← salt.copy 0 [UInt8.ofNat len]
  salt.copy (len + 1) (wire control)

/-- `addNSEC3Cover` with its memory: what it answers, if all of it stays inside. -/
def Env.addNSEC3CoverChecked (env : Env) (name control : Name) (wild : Bool) (salt : Buffer 255)
    (r : Response) : Except Halt Build :=
  match first hashParams (env.find control false) with
  | some (some p) => do
    let salt ← salt.copy 0 p.salt
    let control := lowerTail name.length control
    let digest := env.digest ⟨p.iterations, salt.bytes.take p.salt.length⟩ wild (lowerName name)
    let salt ← bucketName digest control salt
    match first hashlist (env.find (nibbleLabel digest :: control) false) with
    | some (some f) =>
      let hpos ← bucketSearch f digest (f.dpos + 20)
      let hash ← readAt f (hpos - 20) 20
      let _ ← hashedName hash control salt
      .ok (env.addNSEC3 (base32hex hash :: control) r)
    | _ => .ok (.error r)
  | _ => .ok (.error r)

theorem copy_eq_ok {n : Nat} {b b' : Buffer n} {pos : Nat} {s : Bytes} (h : b.copy pos s = .ok b') :
    pos + s.length ≤ n ∧ b'.bytes = patch b.bytes pos s := by
  unfold Buffer.copy at h
  split at h
  · rename_i fits
    cases h
    exact ⟨fits, rfl⟩
  · cases h

theorem readAt_eq_ok {f : Found} {pos len : Nat} {s : Bytes} :
    readAt f pos len = .ok s ↔
      (f.dpos ≤ pos ∧ pos + len ≤ f.data.length) ∧ s = (f.data.drop pos).take len := by
  unfold readAt
  split
  · rename_i inside
    rw [Except.ok.injEq, eq_comm]
    exact (and_iff_right inside).symm
  · rename_i outside
    exact iff_of_false (fun h => by cases h) fun h => outside h.1

/-- A search that stays inside stops in front of a whole hash. -/
theorem bucketSearch_eq_ok {f : Found} {digest : Bytes} {hpos h : Nat} (more : Bytes)
    (run : bucketSearch f digest hpos = .ok h) :
    h + 20 ≤ f.data.length ∧
      ∃ n, h = hpos + 20 * n ∧ Stops (f.data ++ more) f.data.length digest hpos n := by
  induction hpos using bucketSearch.induct f digest with
  | case1 hpos e read =>
    rw [bucketSearch, read] at run
    cases run
  | case2 hpos hash read goes ih =>
    rw [bucketSearch, read] at run
    simp only [if_pos goes] at run
    obtain ⟨⟨-, inside⟩, rfl⟩ := readAt_eq_ok.mp read
    obtain ⟨fits, n, rfl, stops⟩ := ih run
    refine ⟨fits, n + 1, by omega, ?_, ?_⟩
    · intro i hi
      cases i with
      | zero =>
        refine ⟨?_, goes.2⟩
        rw [Nat.mul_zero, Nat.add_zero, hashAt_append inside]
        exact goes.1
      | succ i =>
        have turn := stops.turns i (Nat.lt_of_succ_lt_succ hi)
        rwa [Nat.mul_succ, ← Nat.add_assoc, Nat.add_right_comm]
    · have stopped := stops.stopped
      rwa [Nat.mul_succ, ← Nat.add_assoc, Nat.add_right_comm]
  | case3 hpos hash read stays =>
    rw [bucketSearch, read] at run
    simp only [if_neg stays] at run
    cases run
    obtain ⟨⟨-, inside⟩, rfl⟩ := readAt_eq_ok.mp read
    refine ⟨inside, 0, rfl, ?_, ?_⟩
    · intro i hi
      cases hi
    · intro goes
      apply stays
      unfold Goes at goes
      rw [Nat.mul_zero, Nat.add_zero, hashAt_append inside] at goes
      exact goes

/-- **The search stays inside** exactly when a whole hash that is not smaller stands in its way. -/
theorem bucketSearch_inside_iff {f : Found} {digest : Bytes} {hpos : Nat} (behind : f.dpos ≤ hpos) :
    (∃ h, bucketSearch f digest hpos = .ok h) ↔
      ∃ k, hpos + 20 * k + 20 ≤ f.data.length ∧ ¬ hashAt f.data (hpos + 20 * k) < digest := by
  induction hpos using bucketSearch.induct f digest with
  | case1 hpos e read =>
    refine iff_of_false ?_ ?_
    · rintro ⟨h, run⟩
      rw [bucketSearch, read] at run
      cases run
    · rintro ⟨k, inside, -⟩
      have fits : hpos + 20 ≤ f.data.length := by omega
      rw [readAt_eq_ok.mpr ⟨⟨behind, fits⟩, rfl⟩] at read
      cases read
  | case2 hpos hash read goes ih =>
    rw [bucketSearch, read]
    simp only [if_pos goes]
    rw [ih (by omega)]
    obtain ⟨-, rfl⟩ := readAt_eq_ok.mp read
    constructor
    · rintro ⟨k, inside, stands⟩
      refine ⟨k + 1, by omega, ?_⟩
      rwa [Nat.mul_succ, ← Nat.add_assoc, Nat.add_right_comm]
    · rintro ⟨k, inside, stands⟩
      cases k with
      | zero => exact absurd goes.1 stands
      | succ k =>
        rw [Nat.mul_succ, ← Nat.add_assoc, Nat.add_right_comm] at inside stands
        exact ⟨k, by omega, stands⟩
  | case3 hpos hash read stays =>
    rw [bucketSearch, read]
    simp only [if_neg stays]
    obtain ⟨⟨-, inside⟩, rfl⟩ := readAt_eq_ok.mp read
    refine iff_of_true ⟨hpos, rfl⟩ ⟨0, inside, fun smaller => stays ⟨smaller, by omega⟩⟩

/-- The name of the bucket fits, if the zone's name leaves two octets of the array. -/
theorem bucketName_ok {digest : Bytes} {control : Name} {salt : Buffer 255}
    (fits : dnsDomainLength control ≤ 253) :
    ∃ salt', bucketName digest control salt = .ok salt' ∧
      wire (nibbleLabel digest :: control) <+: salt'.bytes := by
  unfold dnsDomainLength at fits
  have size := salt.size
  obtain ⟨s₁, run₁, bytes₁⟩ := salt.copy_ok 0 [1] (by decide)
  obtain ⟨s₂, run₂, bytes₂⟩ := s₁.copy_ok 1 (nibbleLabel digest) (by
    unfold nibbleLabel
    rw [List.length_singleton]
    decide)
  obtain ⟨s₃, run₃, bytes₃⟩ := s₂.copy_ok 2 (wire control) (by omega)
  have first : s₂.bytes = patch salt.bytes 0 ([1] ++ nibbleLabel digest) := by
    rw [bytes₂, bytes₁]
    exact patch_patch [1] (nibbleLabel digest) (by rw [size]; decide)
  have built : s₃.bytes = patch salt.bytes 0 ([1] ++ nibbleLabel digest ++ wire control) := by
    rw [bytes₃, first]
    refine patch_patch ([1] ++ nibbleLabel digest) (wire control) ?_
    rw [size]
    exact Nat.le_add_left 2 253
  refine ⟨s₃, bind_eq_ok.mpr ⟨s₁, run₁, bind_eq_ok.mpr ⟨s₂, run₂, run₃⟩⟩, ?_⟩
  rw [built, patch_zero]
  exact List.prefix_append _ _

theorem bucketName_fits {digest : Bytes} {control : Name} {salt salt' : Buffer 255}
    (h : bucketName digest control salt = .ok salt') : dnsDomainLength control ≤ 253 := by
  obtain ⟨_, -, h⟩ := bind_eq_ok.mp h
  obtain ⟨_, -, h⟩ := bind_eq_ok.mp h
  obtain ⟨fits, -⟩ := copy_eq_ok h
  exact Nat.le_sub_of_add_le' fits

/-- A patch right behind another one, and the first one written last. -/
theorem patch_front {buf s t : Bytes} (fits : s.length ≤ buf.length) :
    patch (patch buf s.length t) 0 s = patch buf 0 (s ++ t) := by
  have reach : (buf.take s.length).length = s.length := List.length_take_of_le fits
  have behind : (patch buf s.length t).drop s.length = t ++ buf.drop (s.length + t.length) := by
    unfold patch
    rw [List.append_assoc]
    exact List.drop_left' reach
  rw [patch_zero, patch_zero, behind, List.append_assoc, List.length_append]

theorem encoding_hash {hash : Bytes} (twenty : hash.length = 20) :
    (Base32.encoding hash).length = 32 := by
  rw [Base32.encoding_length, twenty]

/-- A hash of twenty octets is written in thirty-two characters. -/
theorem hexInto_ok {hash : Bytes} (twenty : hash.length = 20) (salt : Buffer 255) :
    ∃ salt', hexInto 1 hash salt = .ok (salt', 32) ∧
      salt'.bytes = patch salt.bytes 1 (Base32.encoding hash) := by
  have size := encoding_hash twenty
  have room : (8 * hash.length + 4) / 5 ≤ (salt.bytes.drop 1).length := by
    rw [twenty, List.length_drop, salt.size]
    decide
  have encoded : Base32.base32hex (salt.bytes.drop 1) hash =
      (patch (salt.bytes.drop 1) 0 (Base32.encoding hash), 32) := by
    rw [Base32.base32hex_eq room, twenty]
  have written : (patch (salt.bytes.drop 1) 0 (Base32.encoding hash)).take 32 =
      Base32.encoding hash := by
    rw [patch_zero, ← size, List.take_left]
  obtain ⟨s, run, bytes⟩ := salt.copy_ok 1 (Base32.encoding hash) (by rw [size]; decide)
  refine ⟨s, ?_, bytes⟩
  unfold hexInto
  rw [encoded]
  simp only [written, run]
  rfl

/-- The hashed name fits, if the zone's name leaves thirty-three octets of the array. -/
theorem hashedName_ok {hash : Bytes} (twenty : hash.length = 20) {control : Name}
    {salt : Buffer 255} (fits : dnsDomainLength control ≤ 222) :
    ∃ salt', hashedName hash control salt = .ok salt' ∧
      wire (base32hex hash :: control) <+: salt'.bytes := by
  unfold dnsDomainLength at fits
  have size := encoding_hash twenty
  obtain ⟨s₁, run₁, bytes₁⟩ := hexInto_ok twenty salt
  obtain ⟨s₂, run₂, bytes₂⟩ := s₁.copy_ok 0 [32] (by decide)
  obtain ⟨s₃, run₃, bytes₃⟩ := s₂.copy_ok 33 (wire control) (by omega)
  have first : s₂.bytes = patch salt.bytes 0 ([32] ++ Base32.encoding hash) := by
    rw [bytes₂, bytes₁]
    exact patch_front (by rw [salt.size]; decide)
  have built : s₃.bytes = patch salt.bytes 0 ([32] ++ Base32.encoding hash ++ wire control) := by
    rw [bytes₃, first]
    have reach : 33 = 0 + ([32] ++ Base32.encoding hash).length := by
      rw [List.length_append, size]
      rfl
    rw [reach]
    exact patch_patch _ (wire control) (by rw [← reach, salt.size]; decide)
  refine ⟨s₃, bind_eq_ok.mpr ⟨_, run₁, bind_eq_ok.mpr ⟨s₂, run₂, run₃⟩⟩, ?_⟩
  have named : wire (base32hex hash :: control) = [32] ++ Base32.encoding hash ++ wire control := by
    rw [wire, Base32.lookup_eq, size]
    rfl
  rw [built, patch_zero, named]
  exact List.prefix_append _ _

theorem hashedName_fits {hash : Bytes} (twenty : hash.length = 20) {control : Name}
    {salt salt' : Buffer 255} (h : hashedName hash control salt = .ok salt') :
    dnsDomainLength control ≤ 222 := by
  obtain ⟨s₁, run₁, -⟩ := hexInto_ok twenty salt
  unfold hashedName at h
  obtain ⟨written, run, h⟩ := bind_eq_ok.mp h
  cases run₁.symm.trans run
  obtain ⟨_, -, h⟩ := bind_eq_ok.mp h
  obtain ⟨fits, -⟩ := copy_eq_ok h
  exact Nat.le_sub_of_add_le' fits

/-! ## The record the search is run on -/

theorem first_map {α β γ : Type} (p : α → Option β) (g : β → γ) (rs : List (Option α)) :
    first (fun a => (p a).map g) rs = (first p rs).map (Option.map g) := by
  induction rs with
  | nil => rfl
  | cons r rs ih =>
    cases r with
    | none => rfl
    | some a =>
      unfold first
      rw [ih]
      cases p a <;> rfl

/-- What the lookups take of the record. -/
def Env.taken (env : Env) (digest : Bytes) (f : Found) : Bytes :=
  hashAt (f.data ++ env.stale f.data) (bucketWalk (f.data ++ env.stale f.data) f.data.length digest
    f.data.length (f.dpos + 20) - 20)

theorem covering_eq (env : Env) (digest : Bytes) :
    env.covering digest = fun f => (hashlist f).map (env.taken digest) := by
  funext f
  unfold Env.covering hashlist Env.taken
  split <;> rfl

/-- A search that stays inside takes what the lookups take. -/
theorem readAt_taken {env : Env} {f : Found} {digest : Bytes} {hpos : Nat}
    (run : bucketSearch f digest (f.dpos + 20) = .ok hpos) :
    readAt f (hpos - 20) 20 = .ok (env.taken digest f) ∧ (env.taken digest f).length = 20 := by
  obtain ⟨inside, n, rfl, stops⟩ := bucketSearch_eq_ok (env.stale f.data) run
  have walked := stops.bucketWalk (show n ≤ f.data.length by omega)
  have here : env.taken digest f = hashAt f.data (f.dpos + 20 + 20 * n - 20) := by
    unfold Env.taken
    rw [walked, hashAt_append (by omega)]
  rw [here]
  refine ⟨readAt_eq_ok.mpr ⟨⟨by omega, by omega⟩, rfl⟩, ?_⟩
  unfold hashAt
  rw [List.length_take, List.length_drop]
  omega

theorem lowerTail_length (n : Nat) (d : Name) :
    dnsDomainLength (lowerTail n d) = dnsDomainLength d := by
  unfold dnsDomainLength lowerTail
  rw [wire_length, wire_length, span_append, span_lowerName, ← span_append, List.take_append_drop]

/-! ## Staying inside -/

/-- Behind the first hash of the record there is a whole one that is not smaller than the digest. -/
def Found.StandsIn (f : Found) (digest : Bytes) : Prop :=
  ∃ k, 1 ≤ k ∧ f.dpos + 20 * (k + 1) ≤ f.data.length ∧ ¬ hashAt f.data (f.dpos + 20 * k) < digest

theorem standsIn_iff {f : Found} {digest : Bytes} :
    (∃ hpos, bucketSearch f digest (f.dpos + 20) = .ok hpos) ↔ f.StandsIn digest := by
  rw [bucketSearch_inside_iff (Nat.le_add_right _ 20)]
  constructor
  · rintro ⟨k, inside, stands⟩
    refine ⟨k + 1, Nat.le_add_left 1 k, by omega, ?_⟩
    rwa [Nat.mul_succ, ← Nat.add_assoc, Nat.add_right_comm]
  · rintro ⟨k, some, inside, stands⟩
    obtain ⟨k, rfl⟩ := Nat.exists_eq_add_of_le' some
    rw [Nat.mul_succ, ← Nat.add_assoc, Nat.add_right_comm] at stands
    exact ⟨k, by omega, stands⟩

/-- The record of the bucket, if the search comes to one. -/
def Env.bucketOf (env : Env) (name control : Name) (wild : Bool) (p : HashParams) : Option Found :=
  (first hashlist (env.find (nibbleLabel (env.digest p wild (lowerName name)) ::
    lowerTail name.length control) false)).join

/-- What keeps `addNSEC3Cover` inside: its names fit the array, and the search is stopped by a hash. -/
def Env.CoverFits (env : Env) (name control : Name) (wild : Bool) : Prop :=
  ∀ p, first hashParams (env.find control false) = some (some p) →
    dnsDomainLength control ≤ 253 ∧
      ∀ f, env.bucketOf name control wild p = some f →
        dnsDomainLength control ≤ 222 ∧ f.StandsIn (env.digest p wild (lowerName name))

section

variable {env : Env} {name control : Name} {wild : Bool} {salt : Buffer 255} {r : Response}

/-- The salt is copied, and is what is hashed. -/
theorem salt_copied {p : HashParams} (h : first hashParams (env.find control false) = some (some p)) :
    ∃ salt', salt.copy 0 p.salt = .ok salt' ∧
      (⟨p.iterations, salt'.bytes.take p.salt.length⟩ : HashParams) = p := by
  obtain ⟨_, _, _, _, _, found⟩ := first_eq_some h
  have small := hashParams_salt found
  obtain ⟨salt', run, bytes⟩ := salt.copy_ok 0 p.salt (by omega)
  refine ⟨salt', run, ?_⟩
  rw [bytes, patch_zero, List.take_left]

theorem bucketOf_eq_some {p : HashParams} {f : Found} (h : env.bucketOf name control wild p = some f) :
    first hashlist (env.find (nibbleLabel (env.digest p wild (lowerName name)) ::
      lowerTail name.length control) false) = some (some f) :=
  Option.join_eq_some_iff.mp h

/-- The accesses of one call, from the parameters on. -/
theorem checked_eq {p : HashParams} (h : first hashParams (env.find control false) = some (some p)) :
    ∃ s₁, env.addNSEC3CoverChecked name control wild salt r = (do
      let s₂ ← bucketName (env.digest p wild (lowerName name)) (lowerTail name.length control) s₁
      match env.bucketOf name control wild p with
      | some f =>
        let hpos ← bucketSearch f (env.digest p wild (lowerName name)) (f.dpos + 20)
        let hash ← readAt f (hpos - 20) 20
        let _ ← hashedName hash (lowerTail name.length control) s₂
        .ok (env.addNSEC3 (base32hex hash :: lowerTail name.length control) r)
      | none => .ok (.error r)) := by
  obtain ⟨s₁, copied, same⟩ := @salt_copied env control salt p h
  refine ⟨s₁, ?_⟩
  unfold Env.addNSEC3CoverChecked Env.bucketOf
  rw [h]
  simp only [copied]
  change (bucketName _ _ s₁ >>= _) = _
  rw [same]
  congr 1
  funext s₂
  cases first hashlist (env.find (nibbleLabel (env.digest p wild (lowerName name)) ::
    lowerTail name.length control) false) with
  | none => rfl
  | some found => cases found <;> rfl

/-- A call without parameters touches nothing. -/
theorem checked_idle (none : ∀ p, first hashParams (env.find control false) ≠ some (some p)) :
    env.addNSEC3CoverChecked name control wild salt r = .ok (.error r) := by
  unfold Env.addNSEC3CoverChecked
  split
  · rename_i p params
    exact absurd params (none p)
  · rfl

/-- A call that stays inside answers what the lookups take for its answer. -/
theorem checked_answer {b : Build} (h : env.addNSEC3CoverChecked name control wild salt r = .ok b) :
    b = env.addNSEC3Cover name control wild r := by
  unfold Env.addNSEC3Cover
  split
  · rename_i p params
    obtain ⟨s₁, parts⟩ := @checked_eq env name control wild salt r p params
    rw [parts] at h
    obtain ⟨s₂, -, h⟩ := bind_eq_ok.mp h
    simp only []
    rw [covering_eq, first_map]
    unfold Env.bucketOf at h
    cases found : first hashlist (env.find (nibbleLabel (env.digest p wild (lowerName name)) ::
      lowerTail name.length control) false) with
    | none =>
      rw [found] at h
      cases h
      rfl
    | some record =>
      rw [found] at h
      cases record with
      | none =>
        cases h
        rfl
      | some f =>
        obtain ⟨hpos, run, h⟩ := bind_eq_ok.mp h
        obtain ⟨hash, read, h⟩ := bind_eq_ok.mp h
        obtain ⟨_, -, h⟩ := bind_eq_ok.mp h
        rw [(@readAt_taken env _ _ _ run).1] at read
        cases read
        cases h
        rfl
  · rename_i none
    rw [checked_idle fun p params => none p params] at h
    cases h
    rfl

/-- A call that stays inside has room for its names, and a hash that stops it. -/
theorem fits_of_checked {b : Build} (h : env.addNSEC3CoverChecked name control wild salt r = .ok b) :
    env.CoverFits name control wild := by
  intro p params
  obtain ⟨s₁, parts⟩ := @checked_eq env name control wild salt r p params
  rw [parts] at h
  obtain ⟨s₂, named, h⟩ := bind_eq_ok.mp h
  have fits := bucketName_fits named
  rw [lowerTail_length] at fits
  refine ⟨fits, ?_⟩
  intro f found
  rw [found] at h
  obtain ⟨hpos, run, h⟩ := bind_eq_ok.mp h
  obtain ⟨hash, read, h⟩ := bind_eq_ok.mp h
  obtain ⟨_, hashed, -⟩ := bind_eq_ok.mp h
  obtain ⟨taken, twenty⟩ := @readAt_taken env _ _ _ run
  cases taken.symm.trans read
  have fits := hashedName_fits twenty hashed
  rw [lowerTail_length] at fits
  exact ⟨fits, standsIn_iff.mp ⟨hpos, run⟩⟩

theorem checked_of_fits (fits : env.CoverFits name control wild) :
    ∃ b, env.addNSEC3CoverChecked name control wild salt r = .ok b := by
  by_cases usable : ∃ p, first hashParams (env.find control false) = some (some p)
  · obtain ⟨p, params⟩ := usable
    obtain ⟨s₁, parts⟩ := @checked_eq env name control wild salt r p params
    obtain ⟨two, inside⟩ := fits p params
    rw [← lowerTail_length name.length control] at two
    obtain ⟨s₂, named, -⟩ := @bucketName_ok (env.digest p wild (lowerName name)) _ s₁ two
    rw [parts]
    cases found : env.bucketOf name control wild p with
    | none => exact ⟨.error r, bind_eq_ok.mpr ⟨s₂, named, rfl⟩⟩
    | some f =>
      obtain ⟨few, stands⟩ := inside f found
      rw [← lowerTail_length name.length control] at few
      obtain ⟨hpos, run⟩ := standsIn_iff.mpr stands
      obtain ⟨read, twenty⟩ := @readAt_taken env _ _ _ run
      obtain ⟨s₃, hashed, -⟩ := @hashedName_ok _ twenty _ s₂ few
      exact ⟨_, bind_eq_ok.mpr ⟨s₂, named, bind_eq_ok.mpr ⟨hpos, run,
        bind_eq_ok.mpr ⟨_, read, bind_eq_ok.mpr ⟨s₃, hashed, rfl⟩⟩⟩⟩⟩
  · exact ⟨.error r, checked_idle fun p params => usable ⟨p, params⟩⟩

end

/-- **When `addNSEC3Cover` stays inside its buffers**: the search is stopped by a hash of the record,
and the names fit into the array that had the salt. -/
theorem cover_inside_iff (env : Env) (name control : Name) (wild : Bool) (salt : Buffer 255)
    (r : Response) :
    (∃ b, env.addNSEC3CoverChecked name control wild salt r = .ok b) ↔
      env.CoverFits name control wild :=
  ⟨fun ⟨_, h⟩ => fits_of_checked h, checked_of_fits⟩

/-! ## A bucket without hashes -/

/-- The fields in front of a record's data. -/
def plainHead (type : Bytes) : Bytes := type ++ [61, 0, 0, 14, 16, 0, 0, 0, 0, 0, 0, 0, 0]

/-- A zone of which no bucket has a hash of its own: each has the hash in front of it only. -/
def bareBuckets : Data.Database where
  records := ⟨wire [ascii "a"], plainHead dnsTNsec3param ++ [1, 0, 0, 1, 1, 170]⟩ ::
    (List.range 16).map fun i => ⟨wire [[UInt8.ofNat (65 + i)], ascii "a"],
      plainHead dnsTHashlist ++ List.replicate 20 7⟩
  wellFormed := by decide +kernel

theorem bareBuckets_params :
    (first hashParams ((Env.of bareBuckets true).find [ascii "a"] false)).join.isSome = true := by
  decide +kernel

theorem bareBuckets_bucket : ∀ b : UInt8,
    ((first hashlist ((Env.of bareBuckets true).find [[(b >>> 4) + 65], ascii "a"] false)).join.map
      fun f => (f.dpos, f.data.length)) = some (15, 35) := by
  decide +kernel

/-- Whatever the digest is, the first comparison is past the end of the record. -/
theorem cover_outside :
    ¬ ∃ (sha1 : Bytes → Bytes) (salt : Buffer 255) (b : Build),
      { Env.of bareBuckets true with sha1 := sha1 }.addNSEC3CoverChecked [ascii "x", ascii "a"]
        [ascii "a"] false salt ⟨[], [], 0, 0⟩ = .ok b := by
  rintro ⟨sha1, salt, b, run⟩
  obtain ⟨p, params⟩ := Option.isSome_iff_exists.mp bareBuckets_params
  obtain ⟨-, inside⟩ := fits_of_checked run p (Option.join_eq_some_iff.mp params)
  generalize hdigest : Env.digest { Env.of bareBuckets true with sha1 := sha1 } p false
    (lowerName [ascii "x", ascii "a"]) = digest at inside
  obtain ⟨f, found, place⟩ := Option.map_eq_some_iff.mp (bareBuckets_bucket (digest.headD 0))
  obtain ⟨dpos, size⟩ := Prod.ext_iff.mp place
  have bucket : Env.bucketOf { Env.of bareBuckets true with sha1 := sha1 } [ascii "x", ascii "a"]
      [ascii "a"] false p = some f := by
    unfold Env.bucketOf
    rw [hdigest]
    exact found
  obtain ⟨-, k, some, fits, -⟩ := inside f bucket
  simp only at dpos size
  omega

end TinyDnssec.Lookup
