import TinyDnssec.Lookup.Denial

/-!
# Answering a query

`doit` and `respond` of `tdlookup.c`, built with DNSSEC. The zone of the query name is its nearest
ancestor with NS records, the name itself included. In a zone of its own the server walks up from
the query name to the first node that has records, plain ones at the name and wildcards above it,
and answers from them; a CNAME among them starts `doit` again for its target. What is missing is
denied, a child zone is referred to, and the addresses of the servers named so far are added.

The functions follow the C code from top to bottom: the zone search, the answer loop, the AUTHORITY
part, the additional part. A pointer into the query name is a tail of it here.

`doit` calls itself once for each CNAME it has put into the answer, and a response has no room for
more than 65535 octets; the recursion runs on fuel, and `respond` gives it more than that.

`cdb_find` and the clock are taken as given. That an answer is right is not established in this module.
-/

namespace TinyDnssec.Lookup

open Octets Loop

/-! ## The zone -/

structure Zone where
  control : Name
  flagauthoritative : Bool
  flagsigned : Bool

/-- The zone search, from `control` upwards. The outer `none` is a failure; the inner one is a name
outside all zones. -/
def Env.zone (env : Env) (control : Name) : Option (Option Zone) :=
  match complete (env.find control false) with
  | none => none
  | some fs =>
    let has (type : Bytes) : Bool := fs.any fun f => decide (f.type = type)
    if has dnsTNs then
      some (some ⟨control, has dnsTSoa, has dnsTDnskey && has dnsTRrsig && has dnsTNsec3param⟩)
    else
      match control with
      | [] => some none
      | _ :: up => env.zone up

/-! ## Addresses -/

/-- Addresses of one type, of which eight at random are kept: `addr`, `addrnum` and `addrttl`. -/
structure Pool where
  addr : List Bytes
  addrnum : Nat
  addrttl : Nat

def Pool.empty : Pool := ⟨List.replicate 8 [], 0, 0⟩

/-- One more address; `i` is drawn below the new number of addresses. -/
def Pool.place (pool : Pool) (i : Nat) (ip : Bytes) (ttl : Nat) : Pool where
  addr :=
    if i < 8 then
      let addr :=
        if i < pool.addrnum ∧ pool.addrnum < 8 then
          pool.addr.set pool.addrnum (pool.addr.getD i [])
        else pool.addr
      addr.set i ip
    else pool.addr
  addrnum := if pool.addrnum < 1000000 then pool.addrnum + 1 else pool.addrnum
  addrttl := ttl

/-- The addresses that are sent. -/
def Pool.kept (pool : Pool) : List Bytes := pool.addr.take (min pool.addrnum 8)

/-! ## The answer loop -/

/-- The variables of the answer loop. `draws` counts the calls of `dns_random`. -/
structure Answer where
  flagfound : Bool
  flaggavesoa : Bool
  nsec3 : Option Name
  flagcname : Option Name
  pool : Pool
  pool6 : Pool
  draws : Nat

/-- `tai_unix` -/
def taiUnix (u : Nat) : Nat := 4611686018427387914 + u

/-- An RRSIG record whose covered type is asked for and whose time has begun and not run out. -/
def Env.signatureFits (env : Env) (qtype : Bytes) (f : Found) : Bool :=
  let sigtype := f.rdata.take 2
  let validFrom := taiUnix (unbe ((f.rdata.drop 12).take 4))
  let validUntil := taiUnix (unbe ((f.rdata.drop 8).take 4))
  (decide (sigtype = qtype) || decide (qtype = dnsTAny) || decide (sigtype = dnsTCname)) &&
    !decide (env.cur < validFrom) && !decide (validUntil < env.cur)

/-- The record is of a type that is asked for, and may be sent. -/
def Env.wanted (env : Env) (qtype : Bytes) (f : Found) : Bool :=
  (decide (f.type = qtype) || decide (qtype = dnsTAny) || decide (f.type = dnsTCname) ||
      (env.doDnssec && decide (f.type = dnsTRrsig))) &&
    !(decide (f.type = dnsTHashref) || decide (f.type = dnsTHashlist)) &&
    !(env.doDnssec && decide (f.type = dnsTRrsig) && decide (f.data.length - f.dpos > 18) &&
      !env.signatureFits qtype f)

/-- How the data of an answer is copied. -/
def answerShape (f : Found) : List Field :=
  if f.type = dnsTNs ∨ f.type = dnsTCname ∨ f.type = dnsTPtr then [.name]
  else if f.type = dnsTMx then mxShape
  else if f.type = dnsTSoa then soaShape
  else if f.type = dnsTRrsig ∧ f.data.length - f.dpos > 18 then rrsigShape
  else [.rest]

/-- A CNAME record to be followed. -/
def followed (qtype : Bytes) (f : Found) : Option Name :=
  if f.type = dnsTCname ∧ qtype ≠ dnsTCname then (dnsPacketGetname f.data f.dpos).map Prod.fst
  else none

/-- `dns_random(n + 1)` -/
def Env.dnsRandom (env : Env) (draws n : Nat) : Nat := env.random draws % (n + 1)

/-- The target of a HASHREF record becomes `nsec3`. -/
def Env.noteHashref (env : Env) (f : Found) (s : Response × Answer) :
    Except Response (Response × Answer) :=
  if env.doDnssec ∧ f.type = dnsTHashref ∧ f.data.length > f.dpos then
    match dnsPacketGetname f.data f.dpos with
    | none => .error s.1
    | some (target, _) => .ok (s.1, { s.2 with nsec3 := some target })
  else .ok s

/-- One record of the answer loop. -/
def Env.answerStep (env : Env) (q : Name) (qtype : Bytes) (f : Found) (s : Response × Answer) :
    Except Response (Response × Answer) :=
  if s.2.flaggavesoa ∧ f.type = dnsTSoa then .ok (s.1, { s.2 with flagfound := true })
  else do
    let (r, a) ← env.noteHashref f (s.1, { s.2 with flagfound := true })
    if !env.wanted qtype f then .ok (r, a)
    else if f.type = dnsTA ∧ f.data.length - f.dpos = 4 ∧ (!env.doDnssec ∨ a.pool.addrnum < 8) then
      .ok (r, { a with
        pool := a.pool.place (env.dnsRandom a.draws a.pool.addrnum) f.rdata f.ttl
        draws := a.draws + 1 })
    else if f.type = dnsTAaaa ∧ f.data.length - f.dpos = 16 ∧
        (!env.doDnssec ∨ a.pool6.addrnum < 8) then
      .ok (r, { a with
        pool6 := a.pool6.place (env.dnsRandom a.draws a.pool6.addrnum) f.rdata f.ttl
        draws := a.draws + 1 })
    else do
      let r ← emit q (answerShape f) .answer f r
      .ok (r, { a with
        flaggavesoa := a.flaggavesoa || decide (f.type = dnsTSoa)
        flagcname := (followed qtype f).or a.flagcname })

/-- The addresses of one pool, under the ttl of the last one found. -/
def addPool (q : Name) (type : Bytes) (pool : Pool) (r : Response) : Build :=
  each id (fun ip r => emit q [.rest] .answer ⟨type, pool.addrttl, ip, 0⟩ r) (pool.kept.map some) r

/-- The answer loop at one node. -/
def Env.answerNode (env : Env) (q : Name) (qtype : Bytes) (wild : Name) (s : Response × Answer) :
    Except Response (Response × Answer) := do
  let (r, a) ← each Prod.fst (env.answerStep q qtype) (env.find wild (decide (wild ≠ q)))
    (s.1, { s.2 with pool := .empty, pool6 := .empty })
  let r ← addPool q dnsTA a.pool r
  let r ← addPool q dnsTAaaa a.pool6 r
  .ok (r, a)

/-- The answer loop, from `wild` upwards; it answers the node it ended at, too. -/
def Env.answers (env : Env) (q : Name) (qtype : Bytes) (control : Name) (wild : Name)
    (s : Response × Answer) : Except Response (Response × Answer × Name) := do
  let (r, a) ← env.answerNode q qtype wild s
  if a.flagfound ∨ wild = control then .ok (r, a, wild)
  else
    match wild with
    | [] => .ok (r, a, wild)
    | l :: up =>
      if l :: up ≠ q ∧ env.find (l :: up) false ≠ [] then .ok (r, a, l :: up)
      else env.answers q qtype control up (r, a)

/-! ## The authority section -/

/-- One record of the zone where its SOA record and the signatures over that are added. The state
is the response and `flaggavesoa`. -/
def Env.soaStep (env : Env) (control : Name) (f : Found) (s : Response × Bool) :
    Except Response (Response × Bool) :=
  if !s.2 ∧ f.type = dnsTSoa then do
    let r ← emit control soaShape .authority f s.1
    .ok (r, true)
  else if env.doDnssec && f.signs dnsTSoa then do
    let r ← emit control rrsigShape .authority f s.1
    .ok (r, s.2)
  else .ok s

/-- One record of the zone where its NS and DS records and the signatures over both are added. The
state is the response and `have_ds`. -/
def Env.nsStep (env : Env) (control : Name) (f : Found) (s : Response × Bool) :
    Except Response (Response × Bool) :=
  if f.type = dnsTNs then do
    let r ← emit control [.name] .authority f s.1
    .ok (r, s.2)
  else if env.doDnssec ∧ f.type = dnsTDs then do
    let r ← emit control [.rest] .authority f s.1
    .ok (r, true)
  else if env.doDnssec && (f.signs dnsTNs || f.signs dnsTDs) then do
    let r ← emit control rrsigShape .authority f s.1
    .ok (r, s.2)
  else .ok s

/-- The label just below `wild`, and what is behind it. -/
def nextCloser (wild : Name) : Name → Name
  | [] => []
  | l :: up => if wild.length < up.length then nextCloser wild up else l :: up

/-- The SOA of the zone, if it was not given. -/
def Env.denialSoa (env : Env) (z : Zone) (a : Answer) (r : Response) : Build :=
  if a.flaggavesoa then .ok r
  else do
    let (r, _) ← each Prod.fst (env.soaStep z.control) (env.find z.control false) (r, false)
    .ok r

/-- The proof that nothing was found, or that what was found is not of the type asked for. -/
def Env.denialProof (env : Env) (q : Name) (z : Zone) (a : Answer) (wild : Name) (r : Response) :
    Build :=
  match a.flagfound, a.nsec3 with
  | true, some nsec3 => do
    let r ← env.addNSEC3 nsec3 r
    if wild ≠ q then env.addClosestEncloserProof q z.control false r else .ok r
  | _, _ => env.addClosestEncloserProof q z.control true r

/-- The authority section where the answer is empty. -/
def Env.denial (env : Env) (q : Name) (z : Zone) (a : Answer) (wild : Name) (r : Response) :
    Build := do
  let r ← env.denialSoa z a r
  if env.doDnssec && z.flagsigned then env.denialProof q z a wild r else .ok r

/-- An answer from a wildcard in a signed zone. -/
def Env.provesWildcard (env : Env) (q : Name) (z : Zone) (wild : Name) : Bool :=
  env.doDnssec && decide (wild ≠ q) && z.flagsigned

/-- The proof that the wildcard was the right one. -/
def Env.wildcardProof (env : Env) (q : Name) (z : Zone) (wild : Name) (r : Response) : Build :=
  if env.provesWildcard q z wild then env.addNSEC3Cover (nextCloser wild q) z.control false r
  else .ok r

/-- The NS records of a zone. In a referral without DS records `addNSEC3` is called too; whether it
succeeds is not looked at. -/
def Env.servers (env : Env) (flagauthoritative : Bool) (control : Name) (r : Response) : Build :=
  if want control dnsTNs r then do
    let (r, haveDs) ← each Prod.fst (env.nsStep control) (env.find control false) (r, false)
    if env.doDnssec && !flagauthoritative && !haveDs then
      match env.addNSEC3 control r with
      | .ok r => .ok r
      | .error r => .ok r
    else .ok r
  else .ok r

/-- The authority section where the answer is not empty, and of a referral. The proof lowers the
zone's name in place. -/
def Env.delegation (env : Env) (q : Name) (z : Zone) (wild : Name) (r : Response) : Build := do
  let r ← env.wildcardProof q z wild r
  env.servers z.flagauthoritative
    (if env.provesWildcard q z wild then lowerTail (nextCloser wild q).length z.control
      else z.control) r

/-! ## The additional section -/

/-- The EDNS0 OPT record. -/
def Env.addOpt (env : Env) (r : Response) : Build :=
  if env.doDnssec then do
    let arpos := r.bytes.length
    let r ← rstart false [] dnsTOpt 32768 r
    .ok (rfinish .additional { r with bytes := patch r.bytes (arpos + 3) (be16 512) })
  else .ok r

/-- One record of a server, of which the addresses and the signatures over them are added. -/
def Env.serverStep (env : Env) (wantAddr : Name) (f : Found) (r : Response) : Build :=
  if f.type = dnsTA then emit wantAddr [.bytes 4] .additional f r
  else if f.type = dnsTAaaa then emit wantAddr [.bytes 16] .additional f r
  else if env.doDnssec && (f.signs dnsTA || f.signs dnsTAaaa) then
    emit wantAddr rrsigShape .additional f r
  else .ok r

/-- The addresses of one server. -/
def Env.addServer (env : Env) (wantAddr : Name) (r : Response) : Build :=
  if want wantAddr dnsTA r then
    each id (env.serverStep wantAddr) (env.find wantAddr false) r
  else .ok r

/-- The addresses of the server that an NS or MX record names. -/
def Env.addServerOf (env : Env) (sent : Bytes) (type : Bytes) (bpos : Nat) (r : Response) : Build :=
  if type = dnsTNs ∨ type = dnsTMx then
    match dnsPacketGetname sent (if type = dnsTNs then bpos else bpos + 2) with
    | none => .error r
    | some (wantAddr, _) => env.addServer (lowerName wantAddr) r
  else .ok r

/-- The walk over the records from `bpos` up to `arpos`. A record takes more than one octet, so as
many rounds as there are octets are enough. -/
def Env.addServers (env : Env) (arpos : Nat) : Nat → Nat → Response → Build
  | 0, _, r => .ok r
  | rounds + 1, bpos, r =>
    if bpos < arpos then
      match dnsPacketSkipname (r.bytes.take arpos) bpos with
      | none => .error r
      | some bpos =>
        match dnsPacketCopy (r.bytes.take arpos) bpos 10 with
        | none => .error r
        | some (x, bpos) => do
          let r ← env.addServerOf (r.bytes.take arpos) (x.take 2) bpos r
          env.addServers arpos rounds (bpos + unbe (x.drop 8)) r
    else .ok r

/-- What is left of a response that is too long: of one of this server's zones, the additional
records go first, and without DNSSEC the authority records may go too. -/
def Env.shorten (env : Env) (flagauthoritative : Bool) (aupos arpos : Nat) (r : Response) :
    Response :=
  if flagauthoritative ∧ r.bytes.length > env.maxResponseLen then
    let r := cutBack .additional arpos r
    if !env.doDnssec ∧ r.bytes.length > env.maxResponseLen then cutBack .authority aupos r else r
  else r

/-- The additional part of `doit`. -/
def Env.finish (env : Env) (flagauthoritative : Bool) (anpos aupos : Nat) (r : Response) : Build := do
  let arpos := r.bytes.length
  let r ← env.addOpt r
  let r ← env.addServers arpos arpos anpos r
  .ok (env.shorten flagauthoritative aupos arpos r)

/-! ## `doit` -/

/-- The authority section. -/
def Env.authority (env : Env) (q : Name) (z : Zone) (a : Answer) (wild : Name) (anpos : Nat)
    (r : Response) : Build :=
  if z.flagauthoritative ∧ r.bytes.length = anpos then env.denial q z a wild r
  else env.delegation q z wild r

/-- From the label AUTHORITY on. -/
def Env.close (env : Env) (q : Name) (z : Zone) (a : Answer) (wild : Name) (anpos : Nat)
    (r : Response) : Build := do
  let aupos := r.bytes.length
  let r ← env.authority q z a wild anpos r
  env.finish z.flagauthoritative anpos aupos r

/-- The variables at the top of the answer loop. -/
def Answer.start (draws : Nat) : Answer := ⟨false, false, none, none, .empty, .empty, draws⟩

/-- `response[RESPONSE_ANSWER + 1] >= 100`, of a signed octet. -/
def manyAnswers (r : Response) : Bool :=
  let count := (r.bytes.getD 7 0).toNat
  decide (100 ≤ count) && decide (count < 128)

/-- `doit`. `cname` tells whether `q` is the target of a CNAME record, `draws` how often
`dns_random` was called before. -/
def Env.doit (env : Env) (qtype : Bytes) : Nat → Bool → Nat → Name → Response → Build
  | 0, _, _, _, r => .error r
  | fuel + 1, cname, draws, q, r =>
    let anpos := r.bytes.length
    match env.zone q with
    | none => .error r
    | some none => if cname then .ok (clearAa r) else .error r
    | some (some z) =>
      if z.flagauthoritative then do
        let (r, a, wild) ← env.answers q qtype z.control q (r, .start draws)
        match a.flagcname with
        | some target => if manyAnswers r then .error r else env.doit qtype fuel true a.draws target r
        | none => env.close q z a wild anpos (if a.flagfound then r else nxdomain r)
      else env.close q z (.start draws) q anpos (clearAa r)

/-- `respond`, with the client location and the time already looked up. -/
def Env.respond (env : Env) (q : Name) (qtype : Bytes) (r : Response) : Build :=
  env.doit qtype 65536 false 0 q r

end TinyDnssec.Lookup
