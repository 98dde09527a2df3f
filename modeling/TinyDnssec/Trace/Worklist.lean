import TinyDnssec.Base.Distinct
import TinyDnssec.Dns
import TinyDnssec.Name

/-!
# dnstrace: the work list

`dnstrace` keeps what it has heard in three tables: the queries it follows, the servers of zones
and the addresses of servers. From these it makes the list of what it still has to send: each query
to each address of each server of a zone that the name is in. Every fact that comes in is put into
its table and joined with the other two on the spot, so that the list is never computed as a whole.

`Closed` is the invariant: the list is the join of the three tables, without duplicates. What the
tables hold is determined by the facts alone and not by their order, and then so is the list.

Which facts come in is up to the responses, and that the list is ever worked off is not established.
-/

namespace TinyDnssec.Dnstrace

open Octets

/-! ## The tables -/

structure Address where
  owner : Name
  ip : Bytes
deriving DecidableEq

structure Ns where
  owner : Name
  ns : Name
deriving DecidableEq

structure Query where
  owner : Name
  type : Bytes
deriving DecidableEq

structure Qt where
  owner : Name
  type : Bytes
  control : Name
  ip : Bytes
deriving DecidableEq

/-- What a line of the output says, behind `querystr`. -/
inductive Line
  | ns (owner server : Name)
  | a (owner : Name) (ip : Bytes)
  | cname (target : Name)
  | nxdomain
  | nodata
  | answer (record : Bytes)
  | see (referral : Name)
  | lame (referral : Name)
  | unparsable
deriving DecidableEq

structure Tables where
  address : List Address := []
  ns : List Ns := []
  query : List Query := []
  qt : List Qt := []
  out : List Line := []

/-! ## The comparisons and the four insertions -/

def Query.same (x y : Query) : Bool := dnsDomainEqual x.owner y.owner && x.type == y.type

def Ns.same (x y : Ns) : Bool := dnsDomainEqual x.owner y.owner && dnsDomainEqual x.ns y.ns

def Address.same (x y : Address) : Bool := dnsDomainEqual x.owner y.owner && x.ip == y.ip

def Qt.same (x y : Qt) : Bool :=
  dnsDomainEqual x.owner y.owner && dnsDomainEqual x.control y.control && x.type == y.type &&
    x.ip == y.ip

/-- `qt_add`: the roots are not asked about the artificial host of that name. -/
def qtAdd (q : Name) (type : Bytes) (control : Name) (ip : Bytes) (qt : List Qt) : List Qt :=
  if q = [] then qt else Distinct.add Qt.same qt ⟨q, type, control, ip⟩

/-- The second half of `query_add`, for a query that is new. -/
def enterQuery (x : Query) (t : Tables) : Tables :=
  { t with
    query := t.query ++ [x]
    qt := t.ns.foldl (fun qt (n : Ns) =>
      if dnsDomainSuffix x.owner n.owner then
        t.address.foldl (fun qt (a : Address) =>
          if dnsDomainEqual n.ns a.owner then qtAdd x.owner x.type n.owner a.ip qt else qt) qt
      else qt) t.qt }

def queryAdd (owner : Name) (type : Bytes) (t : Tables) : Tables :=
  if t.query.any (Query.same · ⟨owner, type⟩) then t else enterQuery ⟨owner, type⟩ t

def Tables.print (t : Tables) (line : Line) : Tables := { t with out := t.out ++ [line] }

/-- The last loop of `ns_add`, with the entry in front of it. -/
def enterNs (x : Ns) (t : Tables) : Tables :=
  { t with
    ns := t.ns ++ [x]
    qt := t.query.foldl (fun qt (q : Query) =>
      if dnsDomainSuffix q.owner x.owner then
        t.address.foldl (fun qt (a : Address) =>
          if dnsDomainEqual x.ns a.owner then qtAdd q.owner q.type x.owner a.ip qt else qt) qt
      else qt) t.qt }

/-- `ns_add`, which prints the line in any case: the query for the server's address comes before
the server itself. -/
def nsAdd (owner server : Name) (t : Tables) : Tables :=
  if t.ns.any (Ns.same · ⟨owner, server⟩) then t.print (.ns owner server)
  else enterNs ⟨owner, server⟩ (queryAdd server dnsTA (t.print (.ns owner server)))

/-- The last loop of `address_add`, with the entry in front of it. -/
def enterAddress (x : Address) (t : Tables) : Tables :=
  { t with
    address := t.address ++ [x]
    qt := t.ns.foldl (fun qt (n : Ns) =>
      if dnsDomainEqual n.ns x.owner then
        t.query.foldl (fun qt (q : Query) =>
          if dnsDomainSuffix q.owner n.owner then qtAdd q.owner q.type n.owner x.ip qt else qt) qt
      else qt) t.qt }

def addressAdd (owner : Name) (ip : Bytes) (t : Tables) : Tables :=
  if t.address.any (Address.same · ⟨owner, ip⟩) then t.print (.a owner ip)
  else enterAddress ⟨owner, ip⟩ (t.print (.a owner ip))

/-- A call of one of the three. -/
inductive Fact
  | query (owner : Name) (type : Bytes)
  | ns (owner server : Name)
  | address (owner : Name) (ip : Bytes)
deriving DecidableEq

def Tables.learn (t : Tables) : Fact → Tables
  | .query owner type => queryAdd owner type t
  | .ns owner server => nsAdd owner server t
  | .address owner ip => addressAdd owner ip t

/-- The tables after a sequence of calls. -/
def learned (facts : List Fact) : Tables := facts.foldl Tables.learn {}

/-! ## Keys -/

def Query.key (x : Query) : Name × Bytes := (lowerName x.owner, x.type)

def Ns.key (x : Ns) : Name × Name := (lowerName x.owner, lowerName x.ns)

def Address.key (x : Address) : Name × Bytes := (lowerName x.owner, x.ip)

/-- An entry of the work list up to letter case. -/
def Qt.key (x : Qt) : Name × Bytes × Name × Bytes :=
  (lowerName x.owner, x.type, lowerName x.control, x.ip)

def Fact.Valid : Fact → Prop
  | .query owner _ => TinyDnssec.Valid owner
  | .ns owner server => TinyDnssec.Valid owner ∧ TinyDnssec.Valid server
  | .address owner _ => TinyDnssec.Valid owner

instance : DecidablePred Fact.Valid
  | .query owner _ => inferInstanceAs (Decidable (TinyDnssec.Valid owner))
  | .ns owner server =>
    inferInstanceAs (Decidable (TinyDnssec.Valid owner ∧ TinyDnssec.Valid server))
  | .address owner _ => inferInstanceAs (Decidable (TinyDnssec.Valid owner))

/-- The query goes to this address: it is one of a server of a zone that the name is in. -/
structure Meets (q : Query) (n : Ns) (a : Address) : Prop where
  host : q.owner ≠ []
  within : dnsDomainSuffix q.owner n.owner = true
  server : dnsDomainEqual a.owner n.ns = true

/-- The join of the three tables. -/
def Tables.Joins (t : Tables) (k : Name × Bytes × Name × Bytes) : Prop :=
  ∃ q ∈ t.query, ∃ n ∈ t.ns, ∃ a ∈ t.address, Meets q n a ∧
    Qt.key ⟨q.owner, q.type, n.owner, a.ip⟩ = k

/-! ## Comparing keys -/

theorem Query.same_iff {x y : Query} (hx : Valid x.owner) (hy : Valid y.owner) :
    x.same y = true ↔ x.key = y.key := by
  simp only [Query.same, Query.key, Bool.and_eq_true, dnsDomainEqual_iff hx hy, beq_iff_eq,
    Prod.mk.injEq]

theorem Ns.same_iff {x y : Ns} (hx : Valid x.owner ∧ Valid x.ns) (hy : Valid y.owner ∧ Valid y.ns) :
    x.same y = true ↔ x.key = y.key := by
  simp only [Ns.same, Ns.key, Bool.and_eq_true, dnsDomainEqual_iff hx.1 hy.1,
    dnsDomainEqual_iff hx.2 hy.2, Prod.mk.injEq]

theorem Address.same_iff {x y : Address} (hx : Valid x.owner) (hy : Valid y.owner) :
    x.same y = true ↔ x.key = y.key := by
  simp only [Address.same, Address.key, Bool.and_eq_true, dnsDomainEqual_iff hx hy, beq_iff_eq,
    Prod.mk.injEq]

theorem Qt.same_iff {x y : Qt} (hx : Valid x.owner ∧ Valid x.control)
    (hy : Valid y.owner ∧ Valid y.control) : x.same y = true ↔ x.key = y.key := by
  simp only [Qt.same, Qt.key, Bool.and_eq_true, dnsDomainEqual_iff hx.1 hy.1,
    dnsDomainEqual_iff hx.2 hy.2, beq_iff_eq, Prod.mk.injEq]
  tauto

/-! ## The invariant -/

/-- A list of queries to send without duplicates. -/
structure Proper (qt : List Qt) : Prop where
  valid : ∀ x ∈ qt, Valid x.owner ∧ Valid x.control
  nodup : (qt.map Qt.key).Nodup

/-- The list is the join of the tables, whose names are valid. -/
structure Closed (t : Tables) : Prop where
  query : ∀ q ∈ t.query, Valid q.owner
  ns : ∀ n ∈ t.ns, Valid n.owner ∧ Valid n.ns
  address : ∀ a ∈ t.address, Valid a.owner
  proper : Proper t.qt
  joins : ∀ k, k ∈ t.qt.map Qt.key ↔ t.Joins k

/-- The list has an entry with this key. -/
def Queued (k : Name × Bytes × Name × Bytes) (qt : List Qt) : Prop := k ∈ qt.map Qt.key

/-- The list has grown by the entries with these keys. -/
abbrev Grows (P : Name × Bytes × Name × Bytes → Prop) (qt qt' : List Qt) : Prop :=
  Distinct.Gains Proper Queued P qt qt'

theorem qtAdd_grows {q control : Name} (hq : Valid q) (hcontrol : Valid control) (type ip : Bytes)
    {qt : List Qt} (h : Proper qt) :
    Grows (fun k => q ≠ [] ∧ Qt.key ⟨q, type, control, ip⟩ = k) qt (qtAdd q type control ip qt) := by
  unfold qtAdd
  split
  · rename_i root
    exact ⟨h, fun k => by simp [root]⟩
  · rename_i host
    have compares : Distinct.Compares Qt.key Qt.same qt ⟨q, type, control, ip⟩ := fun x hx =>
      Qt.same_iff (h.valid x hx) ⟨hq, hcontrol⟩
    refine ⟨⟨Distinct.forall_add h.valid ⟨hq, hcontrol⟩, Distinct.nodup_add compares h.nodup⟩, ?_⟩
    intro k
    rw [Queued, Distinct.mem_keys_add compares, eq_comm (a := k)]
    simp only [Queued, ne_eq, host, not_false_eq_true, true_and]

/-! ## The list stays the join -/

theorem Closed.print {t : Tables} (closed : Closed t) (line : Line) : Closed (t.print line) :=
  ⟨closed.query, closed.ns, closed.address, closed.proper, closed.joins⟩

section

variable {t : Tables} (closed : Closed t)
include closed

theorem enterQuery_closed {x : Query} (hx : Valid x.owner) : Closed (enterQuery x t) := by
  have grows : Grows (fun k => ∃ n ∈ t.ns, dnsDomainSuffix x.owner n.owner = true ∧
        ∃ a ∈ t.address, dnsDomainEqual n.ns a.owner = true ∧
          x.owner ≠ [] ∧ Qt.key ⟨x.owner, x.type, n.owner, a.ip⟩ = k)
      t.qt (enterQuery x t).qt :=
    Distinct.foldl_gains closed.proper fun _ hqt n hn => Distinct.guarded_gains hqt fun _ =>
      Distinct.foldl_gains hqt fun _ hqt a _ => Distinct.guarded_gains hqt fun _ =>
        qtAdd_grows hx (closed.ns n hn).1 x.type a.ip hqt
  refine ⟨fun q hq => ?_, closed.ns, closed.address, grows.kept, fun k => ?_⟩
  · rcases List.mem_append.mp hq with old | new
    · exact closed.query q old
    · rw [List.mem_singleton.mp new]
      exact hx
  · refine (grows.gained k).trans ((or_congr_left (closed.joins k)).trans ?_)
    simp only [Tables.Joins, enterQuery, List.mem_append, List.mem_singleton, or_and_right,
      exists_or, exists_eq_left]
    refine or_congr_right (exists_congr fun n => and_congr_right fun _ => ?_)
    constructor
    · rintro ⟨within, a, ha, server, host, key⟩
      exact ⟨a, ha, ⟨host, within, (dnsDomainEqual_comm _ _).trans server⟩, key⟩
    · rintro ⟨a, ha, meets, key⟩
      exact ⟨meets.within, a, ha, (dnsDomainEqual_comm _ _).trans meets.server, meets.host, key⟩

theorem enterNs_closed {x : Ns} (hx : Valid x.owner ∧ Valid x.ns) : Closed (enterNs x t) := by
  have grows : Grows (fun k => ∃ q ∈ t.query, dnsDomainSuffix q.owner x.owner = true ∧
        ∃ a ∈ t.address, dnsDomainEqual x.ns a.owner = true ∧
          q.owner ≠ [] ∧ Qt.key ⟨q.owner, q.type, x.owner, a.ip⟩ = k)
      t.qt (enterNs x t).qt :=
    Distinct.foldl_gains closed.proper fun _ hqt q hq => Distinct.guarded_gains hqt fun _ =>
      Distinct.foldl_gains hqt fun _ hqt a _ => Distinct.guarded_gains hqt fun _ =>
        qtAdd_grows (closed.query q hq) hx.1 q.type a.ip hqt
  refine ⟨closed.query, fun n hn => ?_, closed.address, grows.kept, fun k => ?_⟩
  · rcases List.mem_append.mp hn with old | new
    · exact closed.ns n old
    · rw [List.mem_singleton.mp new]
      exact hx
  · refine (grows.gained k).trans ((or_congr_left (closed.joins k)).trans ?_)
    simp only [Tables.Joins, enterNs, List.mem_append, List.mem_singleton, or_and_right,
      exists_or, exists_eq_left, and_or_left]
    refine or_congr_right (exists_congr fun q => and_congr_right fun _ => ?_)
    constructor
    · rintro ⟨within, a, ha, server, host, key⟩
      exact ⟨a, ha, ⟨host, within, (dnsDomainEqual_comm _ _).trans server⟩, key⟩
    · rintro ⟨a, ha, meets, key⟩
      exact ⟨meets.within, a, ha, (dnsDomainEqual_comm _ _).trans meets.server, meets.host, key⟩

theorem enterAddress_closed {x : Address} (hx : Valid x.owner) : Closed (enterAddress x t) := by
  have grows : Grows (fun k => ∃ n ∈ t.ns, dnsDomainEqual n.ns x.owner = true ∧
        ∃ q ∈ t.query, dnsDomainSuffix q.owner n.owner = true ∧
          q.owner ≠ [] ∧ Qt.key ⟨q.owner, q.type, n.owner, x.ip⟩ = k)
      t.qt (enterAddress x t).qt :=
    Distinct.foldl_gains closed.proper fun _ hqt n hn => Distinct.guarded_gains hqt fun _ =>
      Distinct.foldl_gains hqt fun _ hqt q hq => Distinct.guarded_gains hqt fun _ =>
        qtAdd_grows (closed.query q hq) (closed.ns n hn).1 q.type x.ip hqt
  refine ⟨closed.query, closed.ns, fun a ha => ?_, grows.kept, fun k => ?_⟩
  · rcases List.mem_append.mp ha with old | new
    · exact closed.address a old
    · rw [List.mem_singleton.mp new]
      exact hx
  · refine (grows.gained k).trans ((or_congr_left (closed.joins k)).trans ?_)
    simp only [Tables.Joins, enterAddress, List.mem_append, List.mem_singleton, or_and_right,
      exists_or, exists_eq_left, and_or_left]
    refine or_congr_right ?_
    constructor
    · rintro ⟨n, hn, server, q, hq, within, host, key⟩
      exact ⟨q, hq, n, hn, ⟨host, within, (dnsDomainEqual_comm _ _).trans server⟩, key⟩
    · rintro ⟨q, hq, n, hn, meets, key⟩
      exact ⟨n, hn, (dnsDomainEqual_comm _ _).trans meets.server, q, hq, meets.within, meets.host, key⟩

theorem queryAdd_closed {owner : Name} (howner : Valid owner) (type : Bytes) :
    Closed (queryAdd owner type t) := by
  unfold queryAdd
  split
  · exact closed
  · exact enterQuery_closed closed howner

theorem nsAdd_closed {owner server : Name} (valid : Valid owner ∧ Valid server) :
    Closed (nsAdd owner server t) := by
  unfold nsAdd
  split
  · exact closed.print _
  · exact enterNs_closed (queryAdd_closed (closed.print _) valid.2 dnsTA) valid

theorem addressAdd_closed {owner : Name} (howner : Valid owner) (ip : Bytes) :
    Closed (addressAdd owner ip t) := by
  unfold addressAdd
  split
  · exact closed.print _
  · exact enterAddress_closed (closed.print _) howner

theorem learn_closed {f : Fact} (valid : f.Valid) : Closed (t.learn f) := by
  cases f with
  | query owner type => exact queryAdd_closed closed valid type
  | ns owner server => exact nsAdd_closed closed valid
  | address owner ip => exact addressAdd_closed closed valid ip

end

theorem closed_nothing : Closed {} := by
  refine ⟨?_, ?_, ?_, ⟨?_, List.nodup_nil⟩, fun k => ?_⟩
  · exact List.forall_mem_nil _
  · exact List.forall_mem_nil _
  · exact List.forall_mem_nil _
  · exact List.forall_mem_nil _
  · simp [Tables.Joins]

/-! ## What the tables hold -/

/-- The queries that a fact stands for: a server's address is asked for. -/
def Fact.queries : Fact → List (Name × Bytes)
  | .query owner type => [(lowerName owner, type)]
  | .ns _ server => [(lowerName server, dnsTA)]
  | .address _ _ => []

def Fact.servers : Fact → List (Name × Name)
  | .ns owner server => [(lowerName owner, lowerName server)]
  | _ => []

def Fact.addresses : Fact → List (Name × Bytes)
  | .address owner ip => [(lowerName owner, ip)]
  | _ => []

/-- Up to letter case the tables hold what the facts say, and nothing else. -/
structure Holds (facts : List Fact) (t : Tables) : Prop where
  query : ∀ k, k ∈ t.query.map Query.key ↔ k ∈ facts.flatMap Fact.queries
  ns : ∀ k, k ∈ t.ns.map Ns.key ↔ k ∈ facts.flatMap Fact.servers
  address : ∀ k, k ∈ t.address.map Address.key ↔ k ∈ facts.flatMap Fact.addresses

section

variable {t : Tables} (closed : Closed t)
include closed

theorem queryAdd_query_keys {owner : Name} (howner : Valid owner) (type : Bytes)
    (k : Name × Bytes) : k ∈ (queryAdd owner type t).query.map Query.key ↔
      k ∈ t.query.map Query.key ∨ k = (lowerName owner, type) := by
  have added : (queryAdd owner type t).query = Distinct.add Query.same t.query ⟨owner, type⟩ := by
    unfold queryAdd Distinct.add
    split <;> rfl
  rw [added]
  refine Distinct.mem_keys_add fun q hq => ?_
  exact Query.same_iff (closed.query q hq) howner

/-- A server that is known has been asked for. -/
theorem nsAdd_query_keys {owner server : Name} (valid : Valid owner ∧ Valid server)
    (asked : ∀ n ∈ t.ns, (lowerName n.ns, dnsTA) ∈ t.query.map Query.key) (k : Name × Bytes) :
    k ∈ (nsAdd owner server t).query.map Query.key ↔
      k ∈ t.query.map Query.key ∨ k = (lowerName server, dnsTA) := by
  unfold nsAdd
  split
  · rename_i known
    obtain ⟨n, hn, same⟩ := List.any_eq_true.mp known
    have key := (Ns.same_iff (y := ⟨owner, server⟩) (closed.ns n hn) valid).mp same
    have there : (lowerName server, dnsTA) ∈ t.query.map Query.key := by
      have equal : lowerName n.ns = lowerName server := congrArg Prod.snd key
      rw [← equal]
      exact asked n hn
    constructor
    · exact Or.inl
    · rintro (old | rfl)
      · exact old
      · exact there
  · exact queryAdd_query_keys (closed.print _) valid.2 dnsTA k

theorem nsAdd_ns_keys {owner server : Name} (valid : Valid owner ∧ Valid server)
    (k : Name × Name) : k ∈ (nsAdd owner server t).ns.map Ns.key ↔
      k ∈ t.ns.map Ns.key ∨ k = (lowerName owner, lowerName server) := by
  have added : (nsAdd owner server t).ns = Distinct.add Ns.same t.ns ⟨owner, server⟩ := by
    unfold nsAdd Distinct.add
    split
    · rfl
    · unfold enterNs queryAdd
      split <;> rfl
  rw [added]
  refine Distinct.mem_keys_add fun n hn => ?_
  exact Ns.same_iff (closed.ns n hn) valid

theorem addressAdd_address_keys {owner : Name} (howner : Valid owner) (ip : Bytes)
    (k : Name × Bytes) : k ∈ (addressAdd owner ip t).address.map Address.key ↔
      k ∈ t.address.map Address.key ∨ k = (lowerName owner, ip) := by
  have added : (addressAdd owner ip t).address =
      Distinct.add Address.same t.address ⟨owner, ip⟩ := by
    unfold addressAdd Distinct.add
    split <;> rfl
  rw [added]
  refine Distinct.mem_keys_add fun a ha => ?_
  exact Address.same_iff (closed.address a ha) howner

theorem learn_holds {facts : List Fact} (holds : Holds facts t) {f : Fact} (valid : f.Valid) :
    Holds (facts ++ [f]) (t.learn f) := by
  have asked : ∀ n ∈ t.ns, (lowerName n.ns, dnsTA) ∈ t.query.map Query.key := by
    intro n hn
    obtain ⟨g, hg, key⟩ := List.mem_flatMap.mp ((holds.ns n.key).mp (List.mem_map_of_mem hn))
    refine (holds.query _).mpr (List.mem_flatMap.mpr ⟨g, hg, ?_⟩)
    cases g with
    | query owner type => cases key
    | address owner ip => cases key
    | ns owner server =>
      rw [show lowerName n.ns = lowerName server from congrArg Prod.snd (List.mem_singleton.mp key)]
      exact List.mem_singleton_self _
  cases f with
  | query owner type =>
    have ns : (queryAdd owner type t).ns = t.ns := by unfold queryAdd; split <;> rfl
    have address : (queryAdd owner type t).address = t.address := by unfold queryAdd; split <;> rfl
    refine ⟨fun k => ?_, fun k => ?_, fun k => ?_⟩
    · rw [Tables.learn, queryAdd_query_keys closed valid, holds.query]
      simp [Fact.queries]
    · rw [Tables.learn, ns, holds.ns]
      simp [Fact.servers]
    · rw [Tables.learn, address, holds.address]
      simp [Fact.addresses]
  | ns owner server =>
    have address : (nsAdd owner server t).address = t.address := by
      unfold nsAdd
      split
      · rfl
      · unfold enterNs queryAdd
        split <;> rfl
    refine ⟨fun k => ?_, fun k => ?_, fun k => ?_⟩
    · rw [Tables.learn, nsAdd_query_keys closed valid asked, holds.query]
      simp [Fact.queries]
    · rw [Tables.learn, nsAdd_ns_keys closed valid, holds.ns]
      simp [Fact.servers]
    · rw [Tables.learn, address, holds.address]
      simp [Fact.addresses]
  | address owner ip =>
    have query : (addressAdd owner ip t).query = t.query := by unfold addressAdd; split <;> rfl
    have ns : (addressAdd owner ip t).ns = t.ns := by unfold addressAdd; split <;> rfl
    refine ⟨fun k => ?_, fun k => ?_, fun k => ?_⟩
    · rw [Tables.learn, query, holds.query]
      simp [Fact.queries]
    · rw [Tables.learn, ns, holds.ns]
      simp [Fact.servers]
    · rw [Tables.learn, addressAdd_address_keys closed valid, holds.address]
      simp [Fact.addresses]

end

/-- Every sequence of calls keeps the list the join of tables that hold its facts. -/
theorem learned_spec {facts : List Fact} (valid : ∀ f ∈ facts, f.Valid) :
    Closed (learned facts) ∧ Holds facts (learned facts) := by
  induction facts using List.reverseRecOn with
  | nil => exact ⟨closed_nothing, ⟨fun _ => Iff.rfl, fun _ => Iff.rfl, fun _ => Iff.rfl⟩⟩
  | append_singleton facts f ih =>
    obtain ⟨closed, holds⟩ := ih fun g hg => valid g (List.mem_append_left _ hg)
    have new : f.Valid := valid f (List.mem_append_right _ (List.mem_singleton_self f))
    rw [learned, List.foldl_append]
    exact ⟨learn_closed closed new, learn_holds closed holds new⟩

/-! ## The order of the facts -/

/-- The join of three sets of keys. -/
def Joined (queries : List (Name × Bytes)) (servers : List (Name × Name))
    (addresses : List (Name × Bytes)) (k : Name × Bytes × Name × Bytes) : Prop :=
  ∃ q ∈ queries, ∃ n ∈ servers, ∃ a ∈ addresses,
    q.1 ≠ [] ∧ n.1 <:+ q.1 ∧ a.1 = n.2 ∧ (q.1, q.2, n.1, a.2) = k

/-- What the list holds is a matter of the keys in the tables. -/
theorem Closed.joins_iff {t : Tables} (closed : Closed t) (k : Name × Bytes × Name × Bytes) :
    t.Joins k ↔
      Joined (t.query.map Query.key) (t.ns.map Ns.key) (t.address.map Address.key) k := by
  simp only [Tables.Joins, Joined, List.mem_map, exists_exists_and_eq_and]
  refine exists_congr fun q => and_congr_right fun hq => exists_congr fun n =>
    and_congr_right fun hn => exists_congr fun a => and_congr_right fun ha => ?_
  have within := dnsDomainSuffix_iff (closed.query q hq) (closed.ns n hn).1
  have server := dnsDomainEqual_iff (closed.address a ha) (closed.ns n hn).2
  have host : lowerName q.owner ≠ [] ↔ q.owner ≠ [] := by simp [lowerName]
  simp only [Query.key, Ns.key, Address.key, Qt.key]
  constructor
  · rintro ⟨meets, key⟩
    exact ⟨host.mpr meets.host, within.mp meets.within, server.mp meets.server, key⟩
  · rintro ⟨some, below, equal, key⟩
    exact ⟨⟨host.mp some, within.mpr below, server.mpr equal⟩, key⟩

/-- **The work list is the join of what is recorded**, and recorded is what the calls said. It has no
duplicates up to letter case, and the same facts in another order, or more than once, make the same list. -/
theorem worklist_closed {facts : List Fact} (valid : ∀ f ∈ facts, f.Valid) :
    Holds facts (learned facts) ∧ ((learned facts).qt.map Qt.key).Nodup ∧
      (∀ k, k ∈ (learned facts).qt.map Qt.key ↔ (learned facts).Joins k) ∧
      ∀ facts', (∀ f, f ∈ facts' ↔ f ∈ facts) →
        ∀ k, k ∈ (learned facts').qt.map Qt.key ↔ k ∈ (learned facts).qt.map Qt.key := by
  obtain ⟨closed, holds⟩ := learned_spec valid
  refine ⟨holds, closed.proper.nodup, closed.joins, fun facts' same k => ?_⟩
  obtain ⟨closed', holds'⟩ := learned_spec fun f hf => valid f ((same f).mp hf)
  have flat {β : Type} (g : Fact → List β) (x : β) :
      x ∈ facts'.flatMap g ↔ x ∈ facts.flatMap g := by
    simp only [List.mem_flatMap, same]
  rw [closed.joins, closed'.joins, closed.joins_iff, closed'.joins_iff]
  simp only [Joined, holds.query, holds.ns, holds.address, holds'.query, holds'.ns, holds'.address,
    flat]

/-- 10.0.0.1, as addresses are kept. -/
def rootAddress : Bytes := List.replicate 10 0 ++ [255, 255, 10, 0, 0, 1]

/-- A query, a root server and its address, under two spellings of its name. -/
def rootFacts : List Fact :=
  [.query [[119], [120]] dnsTTxt, .ns [] [[97]], .address [[65]] rootAddress]

theorem worklist_closed_rootFacts :
    Holds rootFacts (learned rootFacts) ∧
      (learned rootFacts).qt.map Qt.key =
        [([[119], [120]], dnsTTxt, [], rootAddress), ([[97]], dnsTA, [], rootAddress)] ∧
      (learned rootFacts.reverse).qt.map Qt.key ⊆ (learned rootFacts).qt.map Qt.key ∧
      ((learned rootFacts).qt.map Qt.key).Nodup := by
  have valid : ∀ f ∈ rootFacts, f.Valid := by decide
  obtain ⟨holds, nodup, -, order⟩ := worklist_closed valid
  refine ⟨holds, by decide +kernel, fun k hk => ?_, nodup⟩
  exact (order rootFacts.reverse (fun _ => List.mem_reverse) k).mp hk

end TinyDnssec.Dnstrace
