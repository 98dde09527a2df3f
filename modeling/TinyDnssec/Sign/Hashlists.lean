import TinyDnssec.History
import TinyDnssec.Lookup.Covering
import TinyDnssec.Sha1
import TinyDnssec.Sign.Generic
import TinyDnssec.Sign.Zone

/-!
# Hash lists between signer and server

`tinydns-sign` prints one HASHLIST record for each leading nibble, `tinydns-data` stores it, and
`addNSEC3Cover` looks for the hash in front of a digest in it. The three have to agree on what is in a
list, on what is hashed, and on the name a list is stored under.

On the first they do: what the server takes from a list is the predecessor of the digest among all the
hashes of the zone (`cover_previous`). On the second they do for salts of 1 to 127 octets
(`hashParams_iff`). On the third they do not. The signer writes the nibble as a hexadecimal digit and the
server asks for a letter from A to P, so no list that the signer made is ever found, and a client with
DNSSEC that asks for what a signed zone does not have gets no reply (`serve_unanswered`).

That the NSEC3 record of a hash is in the database, and that its signature verifies, is not established.
-/

namespace TinyDnssec.Sign

open Octets Loop Lookup

/-! ## The lines of the lists -/

/-- The line with the hash list of a nibble. -/
def bucketLine (zone : Bytes) (byNibble : Buckets) (nib : Nat) (ttl ts lo : Bytes) : Bytes :=
  makeGenericRecord (bucketOwner zone nib) 65282 (deref byNibble nib).flatten ttl ts lo

theorem hexChar_plain : ∀ nib < 16,
    hexChar nib ≠ 58 ∧ hexChar nib ≠ 10 ∧ hexChar nib ≠ 92 ∧ hexChar nib ≠ 46 ∧ hexChar nib ≠ 42 := by
  decide

/-- A digit and a dot in front of a name are a label of their own. -/
theorem fromdot_digit {c : UInt8} (plain : c ≠ 92) (letter : c ≠ 46) {s : Bytes} {owner : Name}
    (h : dnsDomainFromdot (c :: 46 :: s) = some owner) :
    ∃ zone, dnsDomainFromdot s = some zone ∧ owner = [c] :: zone := by
  have hdot : (46 : UInt8) ≠ 92 := by decide
  unfold dnsDomainFromdot at h ⊢
  rw [unescape_plain plain, unescape_plain hdot] at h
  have hgo : fromdotGo (unescape s) [] [[c]] = some owner := by
    rw [fromdotGo, if_neg fun hc => letter hc.1, if_neg (by decide), fromdotGo,
      if_pos ⟨rfl, rfl⟩] at h
    exact h
  exact fromdotGo_front hgo

/-- **What `tinydns-data` makes of the line**: the list, under the digit as it is printed. -/
theorem bucketLine_compiles {env : Data.Env} {zone ttl ts lo : Bytes} {byNibble : Buckets} {nib : Nat}
    (cleanZone : Data.Clean zone) (cleanTtl : Data.Clean ttl) (cleanTs : Data.Clean ts)
    (cleanLo : Data.Clean lo) (small : nib < 16) {records : List Data.CdbRecord}
    (h : Data.compileFile env (bucketLine zone byNibble nib ttl ts lo) = .ok records) :
    ∃ apex, dnsDomainFromdot zone = some apex ∧ records = [⟨wire ([hexChar nib] :: apex),
      Data.rrStart dnsTHashlist (scanUlongOr Data.ttlPositive ttl) (Data.ttdparse ts)
        (Data.locparse (Data.trimLine lo)) ++ (deref byNibble nib).flatten⟩] := by
  obtain ⟨hcolon, hnewline, hplain, hletter, hstar⟩ := hexChar_plain nib small
  have hclean : Data.Clean (bucketOwner zone nib) :=
    .cons ⟨hcolon, hnewline⟩ (.cons (by decide) cleanZone)
  unfold bucketLine at h
  rw [compileFile_generic env hclean cleanTtl cleanTs cleanLo,
    show Data.compileKind env 58 = Data.compileGeneric from rfl] at h
  unfold Data.compileGeneric at h
  obtain ⟨owner, howner, h⟩ := bind_eq_ok.mp h
  have howner : dnsDomainFromdot (hexChar nib :: 46 :: zone) = some owner := Data.fromdot_eq_ok.mp howner
  obtain ⟨apex, hapex, rfl⟩ := fromdot_digit hplain hletter howner
  refine ⟨apex, hapex, ?_⟩
  have hnumber : scanUlong (decimal 65282) = 65282 := scanUlong_decimal (by decide)
  have hdata := @Data.txtparse_escape plainChar (by decide) (deref byNibble nib).flatten
  have hallowed : Data.prohibited.lookup (be16 65282) = none := by decide
  simp only [List.getD_cons_zero, List.getD_cons_succ, hnumber, hallowed, hdata] at h
  cases h
  have hbase : Data.wildcardBase ([hexChar nib] :: apex) = none := by
    unfold Data.wildcardBase
    split
    · rename_i heq
      exact absurd (List.cons.inj (List.cons.inj heq).1).1 hstar
    · rfl
  unfold Data.rrFinish
  rw [hbase]
  rfl

/-! ## What is in a list -/

/-- The lists under the server's letter for a digest have the data that the signer's line for its nibble
makes. The line itself is stored under the digit of the nibble. -/
def Lettered (env : Lookup.Env) (byNibble : Buckets) (digest : Bytes) (apex : Name) : Prop :=
  ∀ record ∈ env.stored (nibbleLabel digest :: apex), record.data.take 2 = dnsTHashlist →
    ∃ (compiler : Data.Env) (zone ttl ts lo : Bytes),
      (Data.Clean zone ∧ Data.Clean ttl ∧ Data.Clean ts ∧ Data.Clean lo) ∧
        Data.compileFile compiler (bucketLine zone byNibble (nib digest) ttl ts lo) =
          .ok [⟨wire ([hexChar (nib digest)] :: apex), record.data⟩]

section

variable {env : Lookup.Env} {byNibble : Buckets} {digest : Bytes} {apex : Name}

theorem rrStart_length {type ttd loc : Bytes} (two : type.length = 2) (eight : ttd.length = 8)
    (locTwo : loc.length = 2) (ttl : Nat) : (Data.rrStart type ttl ttd loc).length =
      if Data.located ((Data.rrStart type ttl ttd loc).getD 2 0) then 17 else 15 := by
  obtain ⟨t₀, t₁, rfl⟩ := List.length_eq_two.mp two
  unfold Data.rrStart
  split
  · simp [be32_length, eight, Data.located]
  · simp [be32_length, eight, locTwo, Data.located]

/-- What the server reads behind the fixed fields of such a list is what the signer put there. -/
theorem Lettered.rdata (lists : Lettered env byNibble digest apex) {f : Found}
    (mem : some f ∈ env.find (nibbleLabel digest :: apex) false) (type : f.type = dnsTHashlist) :
    f.rdata = (deref byNibble (nib digest)).flatten := by
  obtain ⟨record, hrecord, hlook⟩ := some_mem_find.mp mem
  obtain ⟨hdata, htype, hdpos⟩ := look_some hlook
  obtain ⟨compiler, zone, ttl, ts, lo, ⟨hzone, httl, hts, hlo⟩, hrun⟩ :=
    lists record hrecord (htype.symm.trans type)
  obtain ⟨_, _, hmade⟩ := bucketLine_compiles hzone httl hts hlo (nib_lt digest) hrun
  have hlist := congrArg Data.CdbRecord.data (List.cons.inj hmade).1
  simp only at hlist
  have hlength := @rrStart_length dnsTHashlist _ _ rfl (Data.ttdparse_length ts)
    (Data.locparse_length (Data.trimLine lo)) (scanUlongOr Data.ttlPositive ttl)
  generalize hstart : Data.rrStart dnsTHashlist (scanUlongOr Data.ttlPositive ttl) (Data.ttdparse ts)
    (Data.locparse (Data.trimLine lo)) = start at hlist hlength
  have hmark : record.data.getD 2 0 = start.getD 2 0 := by
    rw [hlist]
    refine List.getD_append _ _ _ _ ?_
    rw [hlength]
    split <;> omega
  unfold Found.rdata
  rw [hdpos, hdata, hmark, ← hlength, hlist, List.drop_left]

end

/-- **What the server takes from the list of a digest**, if the list stands under the letter it looks
for: the predecessor of the digest among all the hashes of the zone. The NSEC3 record of that hash names
a hash behind the digest. -/
theorem cover_previous {hashes : List Bytes} (nodup : hashes.Nodup) (octets : ∀ h ∈ hashes, h.length = 20)
    (zero : ∃ h ∈ hashes, nib h = 0) (spread : ∃ h ∈ hashes, nib h ≠ 0) {fuel : Nat} {b : Buckets}
    {next : List (Bytes × Bytes)} (run : byNibble fuel hashes = some (b, next)) {env : Lookup.Env}
    {name control : Name} {wild : Bool} {p : HashParams}
    (params : first hashParams (env.find control false) = some (some p))
    (fresh : env.digest p wild (lowerName name) ∉ hashes)
    (lists : Lettered env b (env.digest p wild (lowerName name)) (lowerTail name.length control))
    {f : Found} (bucket : env.bucketOf name control wild p = some f) :
    ∃ hash after, Cyclic.IsPrevious (· < env.digest p wild (lowerName name)) hashes hash ∧
      (hash, after) ∈ next ∧ Cyclic.Between hash (env.digest p wild (lowerName name)) after ∧
      ∀ r, env.addNSEC3Cover name control wild r =
          env.addNSEC3 (Lookup.base32hex hash :: lowerTail name.length control) r ∧
        ∀ salt b, env.addNSEC3CoverChecked name control wild salt r = .ok b →
          b = env.addNSEC3 (Lookup.base32hex hash :: lowerTail name.length control) r := by
  have hlist := bucketOf_eq_some bucket
  generalize hdigest : env.digest p wild (lowerName name) = digest at fresh lists hlist ⊢
  obtain ⟨low, hlow, hzero⟩ := zero
  obtain ⟨high, hhigh, hnonzero⟩ := spread
  obtain ⟨least, greatest, asc⟩ := ascending_of_nodup (List.ne_nil_of_mem hlow) nodup
  have hleast := asc.nib_first_le low (mem_sortKeys.mpr hlow)
  have hgreatest := asc.nib_le_last high (mem_sortKeys.mpr hhigh)
  obtain ⟨pred, own, hpred, hown, hfetch⟩ :=
    asc.bucketed (by omega) (by omega) run (nib digest) (nib_lt digest)
  obtain ⟨front, f', back, hfind, _, hhashlist⟩ := first_eq_some hlist
  have hsame : f' = f ∧ f'.type = dnsTHashlist := by
    unfold hashlist at hhashlist
    split at hhashlist
    · rename_i hcond
      exact ⟨Option.some_inj.mp hhashlist, hcond.1⟩
    · cases hhashlist
  obtain ⟨rfl, htype⟩ := hsame
  have hmem : some f' ∈ env.find (nibbleLabel digest :: lowerTail name.length control) false :=
    hfind ▸ List.mem_append_right (front.map some) (List.mem_cons_self (l := back))
  have stored := lists.rdata hmem htype
  have hbucket : Bucket f' pred own := by
    refine ⟨htype, ?_, octets pred hpred.1, fun h hh => octets h ((hown.2 h).mp hh).1⟩
    rw [stored, deref, hfetch]
    rfl
  have htaken : env.taken digest f' = Cyclic.search digest pred own := by
    have hsearch := @covering_search env f' pred own hbucket digest
    rw [covering_eq] at hsearch
    simp only [hhashlist, Option.map_some, Option.some_inj] at hsearch
    exact hsearch
  have hprev := Cyclic.search_isPrevious nib_mono hpred hown
  obtain ⟨after, hafter⟩ := Cyclic.exists_link (mem_sortKeys.mpr hprev.1)
  refine ⟨Cyclic.search digest pred own, after, hprev, asc.byNibble_links run ▸ hafter, ?_, ?_⟩
  · exact Cyclic.between_of_link asc.sorted hafter (hprev.congr fun x => mem_sortKeys.symm)
      fun hmem => fresh (mem_sortKeys.mp hmem)
  · intro r
    have hcover : env.addNSEC3Cover name control wild r =
        env.addNSEC3 (Lookup.base32hex (Cyclic.search digest pred own) :: lowerTail name.length control) r := by
      unfold Env.addNSEC3Cover
      rw [params]
      simp only [hdigest]
      rw [covering_eq, first_map, hlist, Option.map_some, Option.map_some, htaken]
    exact ⟨hcover, fun salt b h => (checked_answer h).trans hcover⟩

/-- A zone of two hashes, with the list that the signer makes for the nibble 1 under the letter B. -/
def letterZone : Data.Database where
  records := [⟨wire [ascii "a"], plainHead dnsTNsec3param ++ [1, 0, 0, 1, 1, 170]⟩,
    ⟨wire [[66], ascii "a"], Data.rrStart dnsTHashlist 86400 (Data.ttdparse []) [0, 0] ++
      (List.replicate 20 0 ++ List.replicate 20 16)⟩]
  wellFormed := by decide +kernel

/-- The digest of `x.a` lies behind the hashes of the zone, so its predecessor is the second one, whose
record names the first. -/
theorem cover_previous_letterZone : ∃ b next, byNibble 17 [List.replicate 20 0, List.replicate 20 16] =
      some (b, next) ∧ (List.replicate 20 16, List.replicate 20 0) ∈ next ∧
    ∀ r, Env.addNSEC3Cover { Env.of letterZone true with sha1 := fun _ => List.replicate 20 24 }
        [ascii "x", ascii "a"] [ascii "a"] false r =
      Env.addNSEC3 { Env.of letterZone true with sha1 := fun _ => List.replicate 20 24 }
        (Lookup.base32hex (List.replicate 20 16) :: lowerTail 2 [ascii "a"]) r := by
  have hsort : sortKeys [List.replicate 20 0, List.replicate 20 16] =
      [List.replicate 20 0, List.replicate 20 16] := List.mergeSort_of_pairwise (by decide)
  obtain ⟨made, hmade⟩ : ∃ made, byNibble 17 [List.replicate 20 0, List.replicate 20 16] = some made ∧
      made.2 = [(List.replicate 20 0, List.replicate 20 16), (List.replicate 20 16, List.replicate 20 0)] ∧
        (deref made.1 1).flatten = List.replicate 20 0 ++ List.replicate 20 16 := by
    unfold byNibble
    rw [hsort]
    exact ⟨_, rfl, rfl, rfl⟩
  obtain ⟨hmade, hnext, hlist⟩ := hmade
  have hlists : Lettered { Env.of letterZone true with sha1 := fun _ => List.replicate 20 24 } made.1
      (List.replicate 20 24) [ascii "a"] := by
    intro record hrecord _
    have hclean : Data.Clean (bucketOwner (ascii "a") 1) :=
      .cons (by decide) (.cons (by decide) (.cons (by decide) .nil))
    obtain rfl := List.mem_singleton.mp hrecord
    refine ⟨⟨0, 0⟩, ascii "a", [], [], [], ⟨.cons (by decide) .nil, .nil, .nil, .nil⟩, ?_⟩
    unfold bucketLine
    rw [show nib (List.replicate 20 24) = 1 from rfl, hlist, compileFile_generic _ hclean .nil .nil .nil]
    rfl
  obtain ⟨hash, after, hprev, hlink, -, hcover⟩ := @cover_previous
    [List.replicate 20 0, List.replicate 20 16] (by decide) (by decide)
    ⟨List.replicate 20 0, by decide, by decide⟩ ⟨List.replicate 20 16, by decide, by decide⟩
    17 made.1 made.2 hmade
    { Env.of letterZone true with sha1 := fun _ => List.replicate 20 24 } [ascii "x", ascii "a"]
    [ascii "a"] false ⟨1, [170]⟩ rfl (by decide) hlists _ rfl
  obtain rfl : hash = List.replicate 20 16 := by
    rcases hprev.2 with ⟨-, hgreatest⟩ | ⟨hnone, -⟩
    · have hsecond := hgreatest (List.replicate 20 16) (by decide) (by decide)
      rcases List.mem_pair.mp hprev.1 with rfl | rfl
      · exact absurd hsecond (by decide)
      · rfl
    · exact absurd (hnone (List.replicate 20 0) (by decide)) (by decide)
  exact ⟨made.1, made.2, hmade, hnext ▸ by decide, fun r => (hcover r).1⟩

/-! ## What is hashed -/

/-- Every HASHLIST record of the database comes from a line that the signer printed. -/
def SignedLists (db : Data.Database) : Prop :=
  ∀ record ∈ db.records, record.data.take 2 = dnsTHashlist →
    ∃ (env : Data.Env) (zone ttl ts lo : Bytes) (byNibble : Buckets) (nib : Nat)
      (records : List Data.CdbRecord), (Data.Clean zone ∧ Data.Clean ttl ∧ Data.Clean ts ∧ Data.Clean lo) ∧
        nib < 16 ∧ Data.compileFile env (bucketLine zone byNibble nib ttl ts lo) = .ok records ∧
          record ∈ records

theorem SignedLists.key {db : Data.Database} (lists : SignedLists db) {record : Data.CdbRecord}
    (mem : record ∈ db.records) (type : record.data.take 2 = dnsTHashlist) :
    ∃ nib < 16, ∃ apex, record.key = wire ([hexChar nib] :: apex) := by
  obtain ⟨_, _, _, _, _, _, nib, _, ⟨hzone, httl, hts, hlo⟩, hsmall, hrun, hrecord⟩ :=
    lists record mem type
  obtain ⟨apex, _, rfl⟩ := bucketLine_compiles hzone httl hts hlo hsmall hrun
  rw [List.mem_singleton.mp hrecord]
  exact ⟨nib, hsmall, apex, rfl⟩

/-- The server's letter is none of the signer's digits. -/
theorem wire_nibbleLabel {digest : Bytes} {zone apex : Name} {nib : Nat} (small : nib < 16) :
    wire (nibbleLabel digest :: zone) ≠ wire ([hexChar nib] :: apex) := by
  have hother : ∀ b : UInt8, ∀ nib < 16, b >>> 4 + 65 ≠ hexChar nib := by decide +kernel
  intro h
  have htail := (List.cons.inj h).2
  exact hother (digest.headD 0) nib small (List.cons.inj htail).1

section

variable {env : Lookup.Env}

/-- **The list of a digest is never found** among the lists the signer made. -/
theorem addNSEC3Cover_fails (lists : SignedLists env.db) (name control : Name) (wild : Bool)
    (r : Response) : env.addNSEC3Cover name control wild r = .error r := by
  unfold Env.addNSEC3Cover
  split
  · simp only []
    split
    · rename_i hash hfirst
      obtain ⟨front, f, rest, hfind, _, hcovering⟩ := first_eq_some hfirst
      have hmem := hfind ▸ List.mem_append_right (front.map some) (List.mem_cons_self (l := rest))
      obtain ⟨record, hstored, hlook⟩ := some_mem_find.mp hmem
      obtain ⟨hrecord, hkey⟩ := List.mem_filter.mp hstored
      obtain ⟨_, htype, _⟩ := look_some hlook
      unfold Env.covering at hcovering
      split at hcovering
      · rename_i hlist
        obtain ⟨nib, hsmall, apex, hname⟩ := lists.key hrecord (htype.symm.trans hlist.1)
        rw [hname] at hkey
        exact absurd (of_decide_eq_true hkey).symm (wire_nibbleLabel hsmall)
      · cases hcovering
    · rfl
  · rfl

/-- So there is no proof of a closest encloser. -/
theorem addClosestEncloserProof_fails (lists : SignedLists env.db) {name control : Name}
    {includeWild : Bool} {r r' : Response} :
    env.addClosestEncloserProof name control includeWild r ≠ .ok r' := by
  intro h
  unfold Env.addClosestEncloserProof at h
  split at h
  · cases h
  · obtain ⟨r₁, _, h⟩ := bind_eq_ok.mp h
    split at h
    · obtain ⟨r₂, hwild, _⟩ := bind_eq_ok.mp h
      rw [addNSEC3Cover_fails lists] at hwild
      cases hwild
    · rw [addNSEC3Cover_fails lists] at h
      cases h

/-- Where nothing was found, or a wildcard, there is no authority section. -/
theorem authority_fails (lists : SignedLists env.db) (dnssec : env.doDnssec = true) {z : Zone}
    (home : z.flagauthoritative = true) (signed : z.flagsigned = true) {q wild : Name} {a : Answer}
    {anpos : Nat} {r r' : Response}
    (missing : wild ≠ q ∨ a.flagfound = false ∧ r.bytes.length = anpos) :
    env.authority q z a wild anpos r ≠ .ok r' := by
  intro h
  unfold Env.authority at h
  split at h
  · unfold Env.denial at h
    obtain ⟨r₁, _, h⟩ := bind_eq_ok.mp h
    rw [if_pos (by rw [dnssec, signed]; rfl)] at h
    unfold Env.denialProof at h
    split at h
    · rename_i hfound _
      obtain ⟨r₂, _, h⟩ := bind_eq_ok.mp h
      rcases missing with hwild | ⟨hnone, _⟩
      · rw [if_pos hwild] at h
        exact addClosestEncloserProof_fails lists h
      · rw [hnone] at hfound
        cases hfound
    · exact addClosestEncloserProof_fails lists h
  · rename_i hmore
    have hwild : wild ≠ q := missing.resolve_right fun hnone => hmore ⟨home, hnone.2⟩
    unfold Env.delegation at h
    obtain ⟨r₁, hproof, _⟩ := bind_eq_ok.mp h
    unfold Env.wildcardProof Env.provesWildcard at hproof
    rw [dnssec, signed, decide_eq_true hwild, Bool.and_self, Bool.and_self, if_pos rfl,
      addNSEC3Cover_fails lists] at hproof
    cases hproof

/-- **A signed zone has no answer for a name without records of its own**, be there a wildcard for it
or not, unless the wildcard is an alias. -/
theorem respond_unanswered (lists : SignedLists env.db) (dnssec : env.doDnssec = true)
    {q question control : Name} {qtype : Bytes} (valid : Valid q) (zone : env.Nearest q control)
    (home : env.Shows control dnsTSoa)
    (signed : env.Shows control dnsTDnskey ∧ env.Shows control dnsTRrsig ∧
      env.Shows control dnsTNsec3param)
    (absent : env.visible q false = [])
    (unaliased : ∀ a, env.Selected q control a → ∀ f ∈ env.visible a true, followed qtype f = none)
    {r r' : Response} (idle : Idle r question {}) : env.respond q qtype r ≠ .ok r' := by
  intro h
  unfold Env.respond Env.doit at h
  simp only [] at h
  split at h
  · cases h
  · cases h
  · rename_i z hz
    obtain ⟨hnearest, hsoa, hsigned⟩ := zone_nearest hz
    have hcontrol := hnearest.unique zone
    rw [← hcontrol] at home signed unaliased
    have hauth := hsoa.mpr home
    rw [if_pos hauth] at h
    obtain ⟨⟨r₁, a₁, stop⟩, hanswers, h⟩ := bind_eq_ok.mp h
    have hstopped := answers_stopped valid (List.suffix_refl q) hnearest.above rfl hanswers
    have hvisited := hstopped.visited valid
    have hnothing (hstop : stop = q) : env.visible stop (decide (stop ≠ q)) = [] := by
      rw [hstop, visible_decide_self, absent]
    have hcname : a₁.flagcname = none := by
      rw [hvisited.alias]
      refine lastFollowed_eq_none fun f hf => ?_
      by_cases hstop : stop = q
      · rw [hnothing hstop] at hf
        cases hf
      · have hselected := hstopped.selected (List.ne_nil_of_mem hf)
        rw [visible_decide_other hstop] at hf
        exact unaliased stop hselected f hf
    simp only [hcname] at h
    obtain ⟨r₂, hauthority, _⟩ := bind_eq_ok.mp h
    refine authority_fails lists dnssec hauth (hsigned.mpr signed) ?_ hauthority
    by_cases hstop : stop = q
    · right
      rw [hnothing hstop] at hvisited
      obtain ⟨hunfound, hsame⟩ := hvisited.nothing
      refine ⟨hunfound, ?_⟩
      rw [hunfound, if_neg Bool.false_ne_true, hsame]
      have hheader := idle.header
      exact patch_length (by simp only [List.length_cons, List.length_nil]; omega)
    · exact .inl hstop

end

/-! ## No reply -/

/-- The settings of the lookup for a query. -/
def queryEnv (w : World) (s : Server) (db : Data.Database) (x : Query) (buf : Bytes) : Lookup.Env :=
  let edns0 := (checkEdns0 x.header buf x.pos).2
  Server.settings w { s with maxResponseLen := edns0.maxResponseLen, doDnssec := edns0.doDnssec } db

/-- **A server of signed zones does not answer a client with DNSSEC** that asks for a name without
records of its own in a signed zone, unless a wildcard that is an alias stands for it. -/
theorem serve_unanswered {w : World} {s : Server} {db : Data.Database} (opened : s.database w = some db)
    (lists : SignedLists db) {buf : Bytes} {x : Query} (read : readQuery buf = some x)
    (late : x.early = false) {env : Lookup.Env} (lookup : env = queryEnv w s db x buf)
    (dnssec : env.doDnssec = true) {control : Name}
    (zone : env.Nearest (lowerName x.q) control) (home : env.Shows control dnsTSoa)
    (signed : env.Shows control dnsTDnskey ∧ env.Shows control dnsTRrsig ∧
      env.Shows control dnsTNsec3param) (absent : env.visible (lowerName x.q) false = [])
    (unaliased : ∀ a, env.Selected (lowerName x.q) control a → ∀ f ∈ env.visible a true,
      followed x.qtype f = none) : (s.serve w buf).2 = none := by
  obtain ⟨hvalid, hheader, htwo, hclsTwo⟩ := readQuery_spec read
  obtain ⟨r, hstart, hasked⟩ := Query.start_asked hvalid hheader htwo hclsTwo s.response
  have hready := (@Query.setRecursion_asked x _ _ hasked).idle
  have hdb : SignedLists env.db := by
    rw [lookup]
    exact lists
  have hnone (r' : Response) : env.respond (lowerName x.q) x.qtype (x.setRecursion r) ≠ .ok r' :=
    respond_unanswered hdb dnssec hvalid.lower zone home signed absent unaliased hready
  rw [lookup] at hnone
  have hsilent : (s.doit w buf).2 = false := by
    rw [doit_of_read read hstart, late, if_neg Bool.false_ne_true]
    unfold Server.lookup
    simp only []
    split
    · rfl
    · have opened : Server.database w { s with
          maxResponseLen := (checkEdns0 x.header buf x.pos).2.maxResponseLen
          doDnssec := (checkEdns0 x.header buf x.pos).2.doDnssec } = some db := opened
      rw [(respond_eq w _ (lowerName x.q) x.qtype _).2.2, opened]
      unfold Server.looked
      dsimp only
      split
      · rename_i hrespond
        exact absurd hrespond (hnone _)
      · rfl
  rw [serve_snd, hsilent]
  rfl

/-- The record that the signer's line makes for a zone `z` of one hash. -/
def listRecord : Data.CdbRecord where
  key := wire [[48], [122]]
  data := Data.rrStart dnsTHashlist 86400 (Data.ttdparse []) [0, 0] ++ List.replicate 20 7

theorem listRecord_compiles (env : Data.Env) :
    Data.compileFile env (bucketLine [122] [some [List.replicate 20 7]] 0 [] [] []) = .ok [listRecord] := by
  have hclean : Data.Clean (bucketOwner [122] 0) :=
    .cons (by decide) (.cons (by decide) (.cons (by decide) .nil))
  unfold bucketLine
  rw [compileFile_generic env hclean .nil .nil .nil]
  rfl

/-- A signed zone with the list of its only hash, as the signer printed it. -/
def listedZone : Data.Database where
  records := signedRecords [listRecord]
  wellFormed := by decide +kernel

theorem listedZone_lists : SignedLists listedZone := by
  intro record hrecord htype
  have hlast : ∀ record ∈ listedZone.records, record.data.take 2 = dnsTHashlist → record = listRecord := by
    decide +kernel
  obtain rfl := hlast record hrecord htype
  exact ⟨⟨0, 0⟩, [122], [], [], [], _, 0, _, ⟨.cons (by decide) .nil, .nil, .nil, .nil⟩, by decide,
    listRecord_compiles _, List.mem_singleton_self _⟩

/-- What lies in front of the OPT record of that datagram. -/
def dnssecQuery : Query where
  header := [0, 7, 0, 0, 0, 1, 0, 0, 0, 0, 0, 1]
  q := [[120], [122]]
  qtype := dnsTA
  qclass := dnsCIn
  pos := 21

theorem serve_unanswered_listedZone :
    (idleServer.serve { wildcardWorld with file := some listedZone } dnssecDatagram).2 = none := by
  have hsuffix : ∀ b : Name, b <:+ [[120], [122]] → [[122]] <:+ b → b ≠ [[122]] → b = [[120], [122]] := by
    intro b hb hc hne
    rcases List.suffix_cons_iff.mp hb with h | h
    · exact h
    · exact absurd (h.eq_of_length_le hc.length_le) hne
  refine @serve_unanswered { wildcardWorld with file := some listedZone } idleServer listedZone rfl
    listedZone_lists dnssecDatagram dnssecQuery rfl rfl _ rfl (by decide +kernel) [[122]] ?_ ?_ ?_
    (by decide +kernel) ?_
  · refine ⟨⟨[[120]], rfl⟩, ?_, fun b hb hc hne => ?_⟩
    · unfold Env.Shows
      decide +kernel
    · rw [hsuffix b hb hc hne]
      unfold Env.Shows
      decide +kernel
  · unfold Env.Shows
    decide +kernel
  · unfold Env.Shows
    decide +kernel
  · intro a ha
    have habove : a ∈ List.tails [[120], [122]] := by
      rw [List.mem_tails]
      rcases ha with ⟨rfl, -⟩ | ⟨-, -, h, -⟩
      · exact List.suffix_refl _
      · exact h
    clear ha
    revert a
    decide +kernel

end TinyDnssec.Sign
