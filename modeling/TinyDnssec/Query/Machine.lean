import TinyDnssec.Clients
import TinyDnssec.Query.Filing
import TinyDnssec.Query.Special
import TinyDnssec.Response

/-!
# dnscache: the query machine

`doit` of `query.c`, label by label. A query is worked on at several levels: at level 0 what the
client asks for, and above it the addresses of the name servers that the level below needs. Every
label of the function is a definition here, which ends with the label to go to or with what the call
returns; `run` follows the labels.

The arrays of `struct query` have a fixed size, and the limits the loops run up to come from the
environment. An index outside an array is `Fault.range`, and a null pointer that is followed
`Fault.null`: the definitions stop there, so that a run that does not fault has stayed inside the
arrays.

The cache is a parameter, and so is what the rest of the system decides: the draws of the sort of
the servers and whether a packet can be sent. Memory does not run out.
-/

namespace TinyDnssec.Dnscache

open Octets

/-! ## Arrays -/

inductive Fault where
  | range
  | null
deriving DecidableEq

/-- An array of `n` entries. Only these are ever read or written. -/
structure Arr (n : Nat) (α : Type) where
  cell : Nat → α

variable {n : Nat} {α : Type}

def Arr.get (a : Arr n α) (i : Nat) : Except Fault α :=
  if i < n then .ok (a.cell i) else .error .range

def Arr.set (a : Arr n α) (i : Nat) (x : α) : Except Fault (Arr n α) :=
  if i < n then .ok ⟨Function.update a.cell i x⟩ else .error .range

/-- `for (j = 0; j < limit; ++j) dns_domain_free(&a[j]);` -/
def Arr.free (limit : Nat) (a : Arr n (Option Name)) : Except Fault (Arr n (Option Name)) :=
  (List.range limit).foldlM (fun a j => a.set j none) a

/-- A pointer is followed. -/
def deref : Option α → Except Fault α
  | none => .error .null
  | some x => .ok x

/-! ## The state -/

/-- `struct query`, but for its `dns_transmit`. -/
structure Z where
  loop : Nat
  level : Nat
  name : Arr 5 (Option Name)
  control : Arr 5 (Option Name)
  ns : Arr 5 (Arr 16 (Option Name))
  servers : Arr 5 ServerBlock
  aliases : Arr 16 (Option Name)
  aliasttl : Arr 16 Nat
  ipv6 : Arr 5 Bool
  type : Bytes
  cls : Bytes

/-- `(limit > 0 ? limit : (limit = QUERY_MAX...))` -/
def effective (limit : Int) (default : Nat) : Nat := if limit > 0 then limit.toNat else default

def Conf.loops (conf : Conf) : Nat := effective conf.maxloop 100

def Conf.levels (conf : Conf) : Nat := effective conf.maxlevel 5

def Conf.aliases (conf : Conf) : Nat := effective conf.maxalias 16

def Conf.nss (conf : Conf) : Nat := effective conf.maxns 16

/-- The operations of a cache. -/
structure Store (σ : Type) where
  get : σ → Bytes → Option (Bytes × Nat)
  set : σ → CacheSet → σ

/-- What a call of `doit` depends on besides the query. -/
structure Env (σ : Type) where
  conf : Conf
  store : Store σ
  /-- `dns_random` in the sort of the servers -/
  draw : Nat → Nat
  /-- `dns_transmit_start` succeeds. -/
  transmits : Bool

/-- The query, the cache with the calls of `cache_set` so far, and the response buffer. -/
structure World (σ : Type) where
  z : Z
  cache : σ
  calls : List CacheSet
  response : Response

/-- What is handed to `dns_transmit_start`. -/
structure Transmit where
  servers : ServerBlock
  recursive : Bool
  name : Name
  type : Bytes

/-- What a call of `doit` returns: -1, 0 or 1. -/
inductive Result where
  | failed
  | sent (t : Transmit)
  | answered (r : Response)

inductive Label where
  | newname
  | havens
  | lowerlevel
  | servfail
  | nxdomain
  | cname (target : Name) (ttl : Nat)
  | die

inductive Next where
  | goto (label : Label)
  | done (r : Result)

variable {σ : Type} (env : Env σ)

/-- What a label leaves behind, and what is next. -/
abbrev Step (σ : Type) := World σ × Next

def World.put (store : Store σ) (w : World σ) (call : CacheSet) : World σ :=
  { w with cache := store.set w.cache call, calls := w.calls ++ [call] }

def World.puts (store : Store σ) (w : World σ) (calls : List CacheSet) : World σ :=
  calls.foldl (World.put store) w

/-! ## Small steps -/

/-- `dtype`: the type asked for at the level of the query. -/
def Z.dtype (z : Z) : Except Fault Bytes :=
  if z.level = 0 then .ok z.type
  else do
    let ipv6 ← z.ipv6.get z.level
    .ok (if ipv6 then dnsTAaaa else dnsTA)

/-- The names of the servers of a level are freed. -/
def Z.freeNs (nss level : Nat) (z : Z) : Except Fault Z := do
  let row ← z.ns.get level
  let row ← row.free nss
  let ns ← z.ns.set level row
  .ok { z with ns := ns }

def cleanup (conf : Conf) (z : Z) : Except Fault Z := do
  let aliases ← z.aliases.free conf.aliases
  (List.range conf.levels).foldlM (fun z j => do
    let name ← z.name.set j none
    { z with name := name }.freeNs conf.nss j) { z with aliases := aliases }

/-- An address goes to the first free slot of a level. -/
def Z.deposit (level : Nat) (address : Bytes) (z : Z) : Except Fault Z := do
  let block ← z.servers.get level
  if whole : address.length = 16 then
    let servers ← z.servers.set level (block.fill address whole)
    .ok { z with servers := servers }
  else .ok z

def Z.deposits (level : Nat) (addresses : List Bytes) (z : Z) : Except Fault Z :=
  addresses.foldlM (fun z address => z.deposit level address) z

theorem zero_sixteen : (List.replicate 16 v6any).length = 16 := rfl

theorem zero_addresses : ∀ s ∈ List.replicate 16 v6any, s.length = 16 := by
  intro s hs
  rw [List.eq_of_mem_replicate hs]
  rfl

def ServerBlock.zero : ServerBlock where
  slots := List.replicate 16 v6any
  sixteen := zero_sixteen
  addresses := zero_addresses

/-- One slot is zeroed. -/
def ServerBlock.strike (block : ServerBlock) (i : Nat) : ServerBlock where
  slots := block.slots.set i v6any
  sixteen := List.length_set.trans block.sixteen
  addresses s hs := (List.mem_or_eq_of_mem_set hs).elim (block.addresses s) fun h => h ▸ rfl

/-- The loop of `dns_sortip6` on `n` slots. -/
def sortip (draw : Nat → Nat) : Nat → List Bytes → List Bytes
  | n + 2, slots =>
    let i := draw (n + 2) % (n + 2)
    sortip draw (n + 1)
      ((slots.set i (slots.getD (n + 1) v6any)).set (n + 1) (slots.getD i v6any))
  | _, slots => slots

theorem sortip_kept (draw : Nat → Nat) (n : Nat) {slots : List Bytes}
    (whole : ∀ s ∈ slots, s.length = 16) :
    (sortip draw n slots).length = slots.length ∧ ∀ s ∈ sortip draw n slots, s.length = 16 := by
  have taken : ∀ (slots : List Bytes) i, (∀ s ∈ slots, s.length = 16) →
      (slots.getD i v6any).length = 16 := by
    intro slots i whole
    rw [List.getD_eq_getElem?_getD]
    cases h : slots[i]? with
    | none => rfl
    | some s => exact whole s (List.mem_of_getElem? h)
  have placed : ∀ (slots : List Bytes) i s, (∀ s ∈ slots, s.length = 16) → s.length = 16 →
      ∀ s' ∈ slots.set i s, s'.length = 16 := by
    intro slots i s whole hs s' hs'
    exact (List.mem_or_eq_of_mem_set hs').elim (whole s') fun h => h ▸ hs
  induction n generalizing slots with
  | zero => exact ⟨rfl, whole⟩
  | succ n ih =>
    cases n with
    | zero => exact ⟨rfl, whole⟩
    | succ n =>
      have first := placed slots (draw (n + 2) % (n + 2)) _ whole (taken slots (n + 1) whole)
      have later := ih (placed _ (n + 1) _ first (taken slots (draw (n + 2) % (n + 2)) whole))
      refine ⟨later.1.trans ?_, later.2⟩
      rw [List.length_set, List.length_set]

/-- `dns_sortip6` -/
def ServerBlock.sort (draw : Nat → Nat) (block : ServerBlock) : ServerBlock where
  slots := sortip draw 16 block.slots
  sixteen := (sortip_kept draw 16 block.addresses).1.trans block.sixteen
  addresses := (sortip_kept draw 16 block.addresses).2

/-! ## Replies -/

/-- A step of a reply that can fault: it is taken when the steps before it have not failed. -/
def andThen (b : Build) (more : Response → Except Fault Build) : Except Fault Build :=
  match b with
  | .error r => .ok (.error r)
  | .ok r => more r

/-- The loop of `rqa` over the aliases, from entry `i - 1` down. -/
def rqaFind (z : Z) : Nat → Except Fault (Option Nat)
  | 0 => .ok none
  | i + 1 => do
    let a ← z.aliases.get i
    if a.isSome then .ok (some i) else rqaFind z i

/-- The CNAME records from entry `i` on to the current name. -/
def rqaChain (hidettl : Bool) (z : Z) : Nat → Response → Except Fault Build
  | 0, r => do
    let c ← z.aliases.get 0
    let c ← deref c
    let d ← z.name.get 0
    let d ← deref d
    let ttl ← z.aliasttl.get 0
    .ok (responseCname hidettl c d ttl r)
  | i + 1, r => do
    let c ← z.aliases.get (i + 1)
    let c ← deref c
    let d ← z.aliases.get i
    let d ← deref d
    let ttl ← z.aliasttl.get (i + 1)
    andThen (responseCname hidettl c d ttl r) (rqaChain hidettl z i)

/-- `rqa`: the question the client asked, and the aliases followed since. -/
def rqa (conf : Conf) (z : Z) (r : Response) : Except Fault Build := do
  let found ← rqaFind z conf.aliases
  match found with
  | some i =>
    let c ← z.aliases.get i
    let c ← deref c
    andThen (responseQuery c z.type z.cls r) (rqaChain conf.hidettl z i)
  | none =>
    let d ← z.name.get 0
    let d ← deref d
    .ok (responseQuery d z.type z.cls r)

/-- The end of a query that is answered: `rqa`, what goes into the reply besides, `cleanup`. -/
def answer (w : World σ) (more : Response → Build) : Except Fault (Step σ) := do
  let b ← rqa env.conf w.z w.response
  match b >>= more with
  | .error r => .ok ({ w with response := r }, .goto .die)
  | .ok r =>
    let z ← cleanup env.conf w.z
    .ok ({ w with z := z, response := r }, .done (.answered r))

/-- One record: `response_rstart`, its data, `response_rfinish`. -/
def addRecord (hidettl : Bool) (d : Name) (type : Bytes) (ttl : Nat) (parts : List Part)
    (r : Response) : Build := do
  let r ← rstart hidettl d type ttl r
  let r ← parts.foldlM (fun r part =>
    match part with
    | .name n => addname n r
    | .octets s => addbytes s r) r
  .ok (rfinish .answer r)

def addRecords (hidettl : Bool) (d : Name) (type : Bytes) (ttl : Nat) (rdatas : List (List Part))
    (r : Response) : Build :=
  rdatas.foldlM (fun r parts => addRecord hidettl d type ttl parts r) r

/-! ## The cached answers -/

/-- `while ((pos = dns_packet_getname(cached, cachedlen, pos, &t2)))` -/
def decodeNames (data : Bytes) : Nat → Nat → List Name
  | 0, _ => []
  | rounds + 1, pos =>
    match dnsPacketGetname data pos with
    | none => []
    | some (t2, pos) => t2 :: decodeNames data rounds pos

def decodeMx (data : Bytes) : Nat → Nat → List (List Part)
  | 0, _ => []
  | rounds + 1, pos =>
    match dnsPacketCopy data pos 2 with
    | none => []
    | some (misc, pos) =>
      match dnsPacketGetname data pos with
      | none => []
      | some (t2, pos) => [.octets misc, .name t2] :: decodeMx data rounds pos

def decodeSoa (data : Bytes) : Nat → Nat → List (List Part)
  | 0, _ => []
  | rounds + 1, pos =>
    match dnsPacketCopy data pos 20 with
    | none => []
    | some (misc, pos) =>
      match dnsPacketGetname data pos with
      | none => []
      | some (t2, pos) =>
        match dnsPacketGetname data pos with
        | none => []
        | some (t3, pos) => [.name t2, .name t3, .octets misc] :: decodeSoa data rounds pos

/-- `while (cachedlen >= size)` -/
def decodeItems (size : Nat) : Nat → Bytes → List Bytes
  | 0, _ => []
  | rounds + 1, cached =>
    if cached.length ≥ size then cached.take size :: decodeItems size rounds (cached.drop size)
    else []

/-- The items that begin with their length: none at all when the last one is cut short. -/
def decodeOther : Nat → Bytes → Option (List Bytes)
  | 0, _ => some []
  | rounds + 1, cached =>
    if cached.length ≥ 2 then
      let datalen := unbe (cached.take 2)
      let cached := cached.drop 2
      if datalen > cached.length then none
      else (decodeOther rounds (cached.drop datalen)).map (cached.take datalen :: ·)
    else some []

/-- The records that a cached string of a type stands for. No loop has more rounds than the string
has octets. -/
def decode (type data : Bytes) : Option (List (List Part)) :=
  if type = dnsTNs ∨ type = dnsTPtr then
    some ((decodeNames data (data.length + 1) 0).map fun t2 => [.name t2])
  else if type = dnsTMx then some (decodeMx data (data.length + 1) 0)
  else if type = dnsTSoa then some (decodeSoa data (data.length + 1) 0)
  else if type = dnsTA then some ((decodeItems 4 (data.length + 1) data).map fun a => [.octets a])
  else if type = dnsTAaaa then
    some ((decodeItems 16 (data.length + 1) data).map fun a => [.octets a])
  else (decodeOther (data.length + 1) data).map fun items => items.map fun a => [.octets a]

/-- The name a string begins with. What is cached as a CNAME is the string of a name. -/
def readName : Nat → Bytes → Name
  | 0, _ => []
  | _ + 1, [] => []
  | rounds + 1, c :: rest =>
    if c = 0 then [] else rest.take c.toNat :: readName rounds (rest.drop c.toNat)

/-- Each block of NEWNAME either ends it or passes on to the next one. -/
def firstSome {β : Type} : List (Except Fault (Option β)) → Except Fault (Option β)
  | [] => .ok none
  | x :: xs =>
    match x with
    | .error fault => .error fault
    | .ok (some b) => .ok (some b)
    | .ok none => firstSome xs

/-- The block for the types NS, PTR, MX and SOA, and the last one for a type without a block of its
own. -/
def cachedSet (w : World σ) (d : Name) (dtype type : Bytes) : Except Fault (Option (Step σ)) :=
  if typematch type dtype then
    match env.store.get w.cache (cacheKey type d) with
    | none => .ok none
    | some (data, ttl) =>
      if data ≠ [] ∨ dtype ≠ dnsTAny then
        match decode type data with
        | none => .ok (some (w, .goto .die))
        | some rdatas => (answer env w (addRecords env.conf.hidettl d type ttl rdatas)).map some
      else .ok none
  else .ok none

/-- The blocks for A and AAAA. Above level 0 the addresses go to the level below. -/
def cachedAddress (w : World σ) (d : Name) (dtype type front : Bytes) (size : Nat) :
    Except Fault (Option (Step σ)) :=
  if typematch type dtype then
    match env.store.get w.cache (cacheKey type d) with
    | none => .ok none
    | some (data, ttl) =>
      if data = [] ∧ type = dnsTA ∧ w.z.level ≠ 0 then do
        let ipv6 ← w.z.ipv6.set w.z.level true
        .ok (some ({ w with z := { w.z with ipv6 := ipv6 } }, .goto .newname))
      else if data ≠ [] ∨ dtype ≠ dnsTAny then
        if w.z.level ≠ 0 then do
          let items := decodeItems size (data.length + 1) data
          let z ← w.z.deposits (w.z.level - 1) (items.map (front ++ ·))
          .ok (some ({ w with z := z }, .goto .lowerlevel))
        else
          let items := decodeItems size (data.length + 1) data
          (answer env w (addRecords env.conf.hidettl d type ttl (items.map fun a => [.octets a]))).map
            some
      else .ok none
  else .ok none

/-- The types that the last block is not for. -/
def blockTypes : List Bytes :=
  [dnsTAny, dnsTAxfr, dnsTCname, dnsTNs, dnsTPtr, dnsTA, dnsTMx, dnsTAaaa, dnsTSoa]

/-- The cached answers: nothing, when the search for servers is to begin. -/
def cachedAnswer (w : World σ) (d : Name) (dtype : Bytes) : Except Fault (Option (Step σ)) :=
  if dnsDomainLength d > 255 then .ok none
  else if (env.store.get w.cache (cacheKey dnsTAny d)).isSome then .ok (some (w, .goto .nxdomain))
  else
    match env.store.get w.cache (cacheKey dnsTCname d) with
    | some (data, ttl) =>
      let target := readName data.length data
      if typematch dnsTCname dtype then do
        let name ← w.z.name.get 0
        let name ← deref name
        (answer env w (responseCname env.conf.hidettl name target ttl)).map some
      else .ok (some (w, .goto (.cname target ttl)))
    | none =>
      firstSome [
        cachedSet env w d dtype dnsTNs,
        cachedSet env w d dtype dnsTPtr,
        cachedSet env w d dtype dnsTMx,
        cachedSet env w d dtype dnsTSoa,
        cachedAddress env w d dtype dnsTA v4mappedprefix 4,
        cachedAddress env w d dtype dnsTAaaa [] 16,
        if dtype ∈ blockTypes then .ok none else cachedSet env w d dtype dtype]

/-! ## NEWNAME -/

/-- The names of a cached delegation go to the first entries of the level. -/
def Z.fillNs (nss level : Nat) : Nat → List Name → Z → Except Fault Z
  | _, [], z => .ok z
  | j, t1 :: names, z =>
    if j < nss then do
      let row ← z.ns.get level
      let row ← row.set j (some t1)
      let ns ← z.ns.set level row
      Z.fillNs nss level (j + 1) names { z with ns := ns }
    else Z.fillNs nss level j names z

/-- One round of the search for servers: whether those of `d` are known. -/
def searchAt (w : World σ) (d : Name) : Except Fault (Option (Step σ)) :=
  match roots env.conf.roots d with
  | some block => do
    let servers ← w.z.servers.set w.z.level block
    let z ← { w.z with servers := servers }.freeNs env.conf.nss w.z.level
    let control ← z.control.set z.level (some d)
    .ok (some ({ w with z := { z with control := control } }, .goto .havens))
  | none =>
    if ¬ env.conf.forwardonly ∧ w.z.level < 2 ∧ dnsDomainLength d < 255 then
      match env.store.get w.cache (cacheKey dnsTNs d) with
      | none => .ok none
      | some (data, _) =>
        if data = [] then .ok none
        else do
          let control ← w.z.control.set w.z.level (some d)
          let servers ← w.z.servers.set w.z.level .zero
          let z ← { w.z with control := control, servers := servers }.freeNs env.conf.nss w.z.level
          let z ← z.fillNs env.conf.nss z.level 0 (decodeNames data (data.length + 1) 0)
          .ok (some ({ w with z := z }, .goto .havens))
    else .ok none

/-- The search for servers, from `d` upwards. -/
def search (w : World σ) : Name → Except Fault (Step σ)
  | [] => do
    let found ← searchAt env w []
    .ok (found.getD (w, .goto .die))
  | l :: d => do
    let found ← searchAt env w (l :: d)
    match found with
    | some step => .ok step
    | none => search w d

/-- The blocks for the names `doit` knows by itself. -/
def known (w : World σ) (d : Name) (dtype : Bytes) : Except Fault (Option (Step σ)) :=
  match globalip d with
  | some ip =>
    if w.z.level ≠ 0 then do
      let z ← w.z.deposit (w.z.level - 1) ( v4mappedprefix ++ ip)
      .ok (some ({ w with z := z }, .goto .lowerlevel))
    else
      (answer env w fun r =>
        if typematch dnsTA dtype then addRecord env.conf.hidettl d dnsTA 655360 [.octets ip] r
        else .ok r).map some
  | none =>
    match special d with
    | none => .ok none
    | some x =>
      if w.z.level ≠ 0 then .ok (some (w, .goto .lowerlevel))
      else
        (answer env w fun r =>
          if typematch x.type dtype then addRecord env.conf.hidettl d x.type 655360 x.parts r
          else .ok r).map some

def newname (w : World σ) : Except Fault (Step σ) :=
  let w := { w with z := { w.z with loop := w.z.loop + 1 } }
  if w.z.loop = env.conf.loops then .ok (w, .goto .die)
  else do
    let d ← w.z.name.get w.z.level
    let d ← deref d
    let dtype ← w.z.dtype
    let found ← firstSome [known env w d dtype, cachedAnswer env w d dtype]
    match found with
    | some step => .ok step
    | none => search env w d

/-! ## The labels behind NEWNAME -/

/-- The loop of HAVENS over the entries from `j` on: the first name there is becomes the name of the
level above, if the limit allows one more level. -/
def havensGo (levels : Nat) : Nat → Nat → Z → Except Fault (Z × Bool)
  | 0, _, z => .ok (z, false)
  | rounds + 1, j, z => do
    let row ← z.ns.get z.level
    let x ← row.get j
    match x with
    | none => havensGo levels rounds (j + 1) z
    | some t =>
      let freed ← row.set j none
      let ns ← z.ns.set z.level freed
      if z.level + 1 < levels then
        let name ← z.name.set (z.level + 1) (some t)
        let ipv6 ← z.ipv6.set (z.level + 1) false
        .ok ({ z with name := name, ns := ns, level := z.level + 1, ipv6 := ipv6 }, true)
      else havensGo levels rounds (j + 1) { z with ns := ns }

def havens (w : World σ) : Except Fault (Step σ) := do
  let (z, deeper) ← havensGo env.conf.levels env.conf.nss 0 w.z
  if deeper then .ok ({ w with z := z }, .goto .newname)
  else
    let block ← z.servers.get z.level
    if block.slots.all (fun s => decide (s = v6any)) then .ok ({ w with z := z }, .goto .servfail)
    else
      let block := block.sort env.draw
      let servers ← z.servers.set z.level block
      let z := { z with servers := servers }
      let dtype ← z.dtype
      let d ← z.name.get z.level
      let d ← deref d
      -- `log_tx` reads the domain in control
      let control ← z.control.get z.level
      let _ ← deref control
      if env.transmits then
        .ok ({ w with z := z }, .done (.sent ⟨block, env.conf.forwardonly, d, dtype⟩))
      else .ok ({ w with z := z }, .goto .die)

def lowerlevel (w : World σ) : Except Fault (Step σ) := do
  let name ← w.z.name.set w.z.level none
  let z ← { w.z with name := name }.freeNs env.conf.nss w.z.level
  -- level 0 would become the greatest number there is
  if z.level = 0 then .error .range
  else .ok ({ w with z := { z with level := z.level - 1 } }, .goto .havens)

/-- SERVFAIL and NXDOMAIN: above level 0 the level is given up, at level 0 the client is told. -/
def giveUp (tell : Response → Response) (w : World σ) : Except Fault (Step σ) :=
  if w.z.level ≠ 0 then .ok (w, .goto .lowerlevel)
  else answer env w fun r => .ok (tell r)

/-- CNAME -/
def toCname (target : Name) (ttl : Nat) (w : World σ) : Except Fault (Step σ) := do
  if w.z.level = 0 then
    let last ← w.z.aliases.get (env.conf.aliases - 1)
    if last.isSome then .ok (w, .goto .die)
    else
      let aliases ← shift w.z.aliases (env.conf.aliases - 1)
      let aliasttl ← shift w.z.aliasttl (env.conf.aliases - 1)
      let name ← w.z.name.get 0
      let aliases ← aliases.set 0 name
      let aliasttl ← aliasttl.set 0 ttl
      let name ← w.z.name.set 0 (some target)
      .ok ({ w with z := { w.z with aliases := aliases, aliasttl := aliasttl, name := name } },
        .goto .newname)
  else
    let name ← w.z.name.set w.z.level (some target)
    .ok ({ w with z := { w.z with name := name } }, .goto .newname)
where
  /-- `for (j = limit; j > 0; --j) a[j] = a[j - 1];` -/
  shift {n : Nat} {α : Type} (a : Arr n α) : Nat → Except Fault (Arr n α)
    | 0 => .ok a
    | j + 1 => do
      let x ← a.get j
      let a ← a.set (j + 1) x
      shift a j

def die (w : World σ) : Except Fault (Step σ) := do
  let z ← cleanup env.conf w.z
  .ok ({ w with z := z }, .done .failed)

/-! ## HAVEPACKET -/

/-- What the records of a packet amount to. -/
structure Scan where
  /-- `flagout` -/
  out : Bool := false
  /-- `flagcname`: the target and the ttl -/
  cname : Option (Name × Nat) := none
  /-- `flagsoa`: the ttl -/
  soa : Option Nat := none
  /-- `flagreferral`: the owner of the NS records -/
  referral : Option Name := none

/-- The pass over the answers, and where it ends. -/
def scanAnswers (buf : Bytes) (d : Name) (dtype : Bytes) : Nat → Nat → Scan → Option (Scan × Nat)
  | 0, pos, scan => some (scan, pos)
  | n + 1, pos, scan =>
    match look buf pos with
    | none => none
    | some x =>
      if dnsDomainEqual x.owner d ∧ x.header.cls = dnsCIn then
        if typematch x.header.type dtype then
          scanAnswers buf d dtype n x.next { scan with out := true }
        else if typematch x.header.type dnsTCname then
          match dnsPacketGetname buf (x.behind + 10) with
          | none => none
          | some (cname, _) =>
            scanAnswers buf d dtype n x.next { scan with cname := some (cname, ttlget x.header.ttl) }
        else scanAnswers buf d dtype n x.next scan
      else scanAnswers buf d dtype n x.next scan

/-- The pass over the authority section. -/
def scanAuthority (buf : Bytes) : Nat → Nat → Scan → Option Scan
  | 0, _, scan => some scan
  | n + 1, pos, scan =>
    match look buf pos with
    | none => none
    | some x =>
      if typematch x.header.type dnsTSoa then
        let soattl := ttlget x.header.ttl
        scanAuthority buf n x.next { scan with soa := some (if soattl > 3600 then 3600 else soattl) }
      else if typematch x.header.type dnsTNs then
        scanAuthority buf n x.next { scan with referral := some x.owner }
      else scanAuthority buf n x.next scan

theorem scanAuthority_cname {buf : Bytes} {n pos : Nat} {scan scan' : Scan}
    (h : scanAuthority buf n pos scan = some scan') : scan'.cname = scan.cname := by
  induction n generalizing pos scan with
  | zero =>
    cases h
    rfl
  | succ n ih =>
    rw [scanAuthority] at h
    split at h
    · cases h
    · split at h
      · rw [ih h]
      · split at h
        · rw [ih h]
        · exact ih h

/-- A packet as HAVEPACKET reads it. -/
structure Reading where
  rcode : Nat
  posanswers : Nat
  numanswers : Nat
  posauthority : Nat
  numauthority : Nat
  numglue : Nat
  scan : Scan

/-- The header, the question and the two passes; nothing, where the branch gives up. -/
def readPacket (buf : Bytes) (d : Name) (dtype : Bytes) : Option Reading :=
  match dnsPacketCopy buf 0 12 with
  | none => none
  | some (header, pos) =>
    match dnsPacketSkipname buf pos with
    | none => none
    | some pos =>
      let posanswers := pos + 4
      let numanswers := unbe ((header.drop 6).take 2)
      let numauthority := unbe ((header.drop 8).take 2)
      let numglue := unbe ((header.drop 10).take 2)
      let rcode := (header.getD 3 0).toNat % 16
      if rcode ≠ 0 ∧ rcode ≠ 3 then none
      else
        match scanAnswers buf d dtype numanswers posanswers {} with
        | none => none
        | some (scan, posauthority) =>
          match scanAuthority buf numauthority posauthority scan with
          | none => none
          | some scan =>
            some ⟨rcode, posanswers, numanswers, posauthority, numauthority, numglue, scan⟩

/-- A referral to where the query is already, or to somewhere else. -/
def Reading.lame (x : Reading) (control : Name) : Bool :=
  decide (x.scan.cname.isNone ∧ x.rcode = 0 ∧ ¬ x.scan.out ∧ x.scan.soa.isNone) &&
    x.scan.referral.any fun r => dnsDomainEqual r control || !dnsDomainSuffix r control

/-- The data of a record of the answer. -/
def answerData (buf : Bytes) (type : Bytes) (pos datalen : Nat) (r : Response) : Build :=
  if typematch type dnsTNs ∨ typematch type dnsTCname ∨ typematch type dnsTPtr then
    match dnsPacketGetname buf pos with
    | none => .error r
    | some (t2, _) => addname t2 r
  else if typematch type dnsTMx then
    match dnsPacketCopy buf pos 2 with
    | none => .error r
    | some (misc, pos2) => do
      let r ← addbytes misc r
      match dnsPacketGetname buf pos2 with
      | none => .error r
      | some (t2, _) => addname t2 r
  else if typematch type dnsTSoa then
    match dnsPacketGetname buf pos with
    | none => .error r
    | some (t2, pos2) => do
      let r ← addname t2 r
      match dnsPacketGetname buf pos2 with
      | none => .error r
      | some (t3, pos2) =>
        let r ← addname t3 r
        match dnsPacketCopy buf pos2 20 with
        | none => .error r
        | some (misc, _) => addbytes misc r
  else if pos + datalen > buf.length then .error r
  else addbytes ((buf.drop pos).take datalen) r

/-- The loop that answers a client out of the packet. -/
def answerLoop (hidettl : Bool) (buf : Bytes) (d : Name) (dtype : Bytes) :
    Nat → Nat → Response → Build
  | 0, _, r => .ok r
  | n + 1, pos, r =>
    match look buf pos with
    | none => .error r
    | some x =>
      if dnsDomainEqual x.owner d ∧ x.header.cls = dnsCIn ∧ typematch x.header.type dtype then do
        let r ← rstart hidettl x.owner x.header.type (ttlget x.header.ttl) r
        let r ← answerData buf x.header.type (x.behind + 10) x.header.datalen r
        answerLoop hidettl buf d dtype n x.next (rfinish .answer r)
      else answerLoop hidettl buf d dtype n x.next r

/-- `d + dns_domain_suffixpos(d, little)`, where there is such a tail. -/
def suffixTail (little : Name) : Name → Option Name
  | [] => if dnsDomainEqual [] little then some [] else none
  | l :: d => if dnsDomainEqual (l :: d) little then some (l :: d) else suffixTail little d

/-- The loop over the authority section that takes the servers of a referral: their names go to the
entries from `j` on. -/
def referralLoop (nss : Nat) (buf : Bytes) (referral : Name) :
    Nat → Nat → Nat → Z → Except Fault (Option Z)
  | 0, _, _, z => .ok (some z)
  | n + 1, pos, j, z =>
    match look buf pos with
    | none => .ok none
    | some x =>
      if dnsDomainEqual referral x.owner ∧ typematch x.header.type dnsTNs ∧ x.header.cls = dnsCIn ∧
          j < nss then
        match dnsPacketGetname buf (x.behind + 10) with
        | none => .ok none
        | some (t, _) => do
          let row ← z.ns.get z.level
          let row ← row.set j (some t)
          let ns ← z.ns.set z.level row
          referralLoop nss buf referral n x.next (j + 1) { z with ns := ns }
      else referralLoop nss buf referral n x.next j z

/-- The end of HAVEPACKET for a referral. -/
def refer (w : World σ) (buf : Bytes) (d : Name) (x : Reading) : Except Fault (Step σ) :=
  match x.scan.referral with
  | none => .ok (w, .goto .die)
  | some referral =>
    match suffixTail referral d with
    | none => .ok (w, .goto .die)
    | some tail => do
      let control ← w.z.control.set w.z.level (some tail)
      let servers ← w.z.servers.set w.z.level .zero
      let z ← { w.z with control := control, servers := servers }.freeNs env.conf.nss w.z.level
      let z' ← referralLoop env.conf.nss buf referral x.numauthority x.posauthority 0 z
      match z' with
      | none => .ok ({ w with z := z }, .goto .die)
      | some z => .ok ({ w with z := z }, .goto .havens)

/-- The end of HAVEPACKET for an answer, or a packet that is no referral. -/
def answered (w : World σ) (buf : Bytes) (d : Name) (dtype : Bytes) (x : Reading) :
    Except Fault (Step σ) :=
  if w.z.level ≠ 0 then do
    let block ← w.z.servers.get (w.z.level - 1)
    let left := glueLoop buf d x.numanswers x.posanswers ⟨block, []⟩
    let servers ← w.z.servers.set (w.z.level - 1) (leftWith left).block
    let w := { w with z := { w.z with servers := servers } }
    .ok (w, .goto (if left.isOk then .lowerlevel else .die))
  else answer env w (answerLoop env.conf.hidettl buf d dtype x.numanswers x.posanswers)

/-- HAVEPACKET behind the loop over the record sets. -/
def concluded (w : World σ) (buf : Bytes) (d : Name) (dtype : Bytes) (x : Reading) :
    Except Fault (Step σ) :=
  match x.scan.cname with
  | some (target, ttl) => .ok (w, .goto (.cname target ttl))
  | none =>
    if x.rcode = 3 then
      .ok (w.puts env.store (cachegeneric dnsTAny d [] (x.scan.soa.getD 0)).toList, .goto .nxdomain)
    else if ¬ x.scan.out ∧ x.scan.soa.isSome ∧ dtype ≠ dnsTAny ∧ dtype ≠ dnsTAxfr ∧
        dtype ≠ dnsTCname then
      let w := w.puts env.store (saveFinish dtype d (x.scan.soa.getD 0) saveStart).toList
      if w.z.level ≠ 0 ∧ dtype = dnsTA then do
        let ipv6 ← w.z.ipv6.set w.z.level true
        .ok ({ w with z := { w.z with ipv6 := ipv6 } }, .goto .newname)
      else answered env w buf d dtype x
    else if x.scan.out ∨ x.scan.soa.isSome ∨ x.scan.referral.isNone then
      answered env w buf d dtype x
    else refer env w buf d x

/-- HAVEPACKET: a packet from the server in slot `curserver`. -/
def havepacket (buf : Bytes) (curserver : Fin 16) (w : World σ) : Except Fault (Step σ) :=
  let w := { w with z := { w.z with loop := w.z.loop + 1 } }
  if w.z.loop = env.conf.loops then .ok (w, .goto .die)
  else do
    let control ← w.z.control.get w.z.level
    let control ← deref control
    let d ← w.z.name.get w.z.level
    let d ← deref d
    let dtype ← w.z.dtype
    match readPacket buf d dtype with
    | none => .ok (w, .goto .die)
    | some x =>
      if x.lame control then
        let block ← w.z.servers.get w.z.level
        let servers ← w.z.servers.set w.z.level (block.strike curserver)
        .ok ({ w with z := { w.z with servers := servers } }, .goto .havens)
      else
        match file env.conf buf control (x.numanswers + x.numauthority + x.numglue) x.posanswers
            x.posauthority with
        | .error (.die, calls) => .ok (w.puts env.store calls, .goto .die)
        | .error (.nxdomain, calls) => .ok (w.puts env.store calls, .goto .nxdomain)
        | .ok calls => concluded env (w.puts env.store calls) buf d dtype x

/-! ## A call of `doit` -/

def step : Label → World σ → Except Fault (Step σ)
  | .newname => newname env
  | .havens => havens env
  | .lowerlevel => lowerlevel env
  | .servfail => giveUp env servfail
  | .nxdomain => giveUp env nxdomain
  | .cname target ttl => toCname env target ttl
  | .die => die env

/-- The labels that follow, as far as `rounds` reach: nothing, when they do not reach a return. -/
def run : Nat → Step σ → Except Fault (Option (World σ × Result))
  | _, (w, .done r) => .ok (some (w, r))
  | 0, (_, .goto _) => .ok none
  | rounds + 1, (w, .goto label) => do
    let next ← step env label w
    run rounds next

/-- The three ways to enter `doit`. -/
inductive Entrance where
  | fresh
  | packet (buf : Bytes) (curserver : Fin 16)
  | failed

def entered (w : World σ) : Entrance → Except Fault (Step σ)
  | .fresh => .ok (w, .goto .newname)
  | .packet buf curserver => havepacket env buf curserver w
  | .failed => do
    -- `log_servfail` reads the name
    let d ← w.z.name.get w.z.level
    let _ ← deref d
    .ok (w, .goto .servfail)

def doit (rounds : Nat) (w : World σ) (entry : Entrance) : Except Fault (Option (World σ × Result)) := do
  let first ← entered env w entry
  run env rounds first

/-- `query_start`, for a query it does not turn away. -/
def queryStartZ (conf : Conf) (dn : Name) (type cls : Bytes) (z : Z) : Except Fault Z := do
  let z ← cleanup conf z
  let z := { z with level := 0, loop := 0 }
  let name ← z.name.set 0 (some dn)
  let ipv6 ← z.ipv6.set 0 false
  .ok { z with name := name, type := type, cls := cls, ipv6 := ipv6 }

end TinyDnssec.Dnscache
