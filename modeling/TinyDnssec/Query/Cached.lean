import TinyDnssec.Query.Forms
import TinyDnssec.Query.Reached

/-!
# dnscache: the answers out of the cache

A client who asks for a record set that is in the cache gets the records that were saved, one by one
as `decode` reads them back. `addRecords` is the loop that puts them into the reply; what the reply
says is told by `Idle`, which holds whenever no record is half written.

That the cache still has a set, or that the set is the one a server would give now, is not said.
-/

namespace TinyDnssec.Dnscache

open Octets

/-! ## Replying -/

/-- The record a reply has for one of the set. -/
def replyEntry (hidettl : Bool) (d : Name) (type : Bytes) (ttl : Nat) (parts : List Part) :
    TinyDnssec.Entry :=
  ⟨d, type, dnsCIn, if hidettl then 0 else ttl, parts⟩

/-- How much room a record takes with all its names written out. -/
def partRoom : Part → Nat
  | .octets s => s.length
  | .name n => dnsDomainLength n

def recordRoom (d : Name) (parts : List Part) : Nat :=
  dnsDomainLength d + 10 + (parts.map partRoom).sum

/-- The body of the loop of `addRecord`. -/
def addPart (r : Response) : Part → Build
  | .name n => addname n r
  | .octets s => addbytes s r

section Replies

variable {hidettl : Bool} {d : Name} {type : Bytes} {ttl : Nat}

theorem addParts_pending {parts : List Part} (valid : ∀ n, .name n ∈ parts → Valid n)
    {r₀ r r' : Response} {question : Name} {log : Log} {f : Nat} {e : TinyDnssec.Entry}
    (pending : Pending r₀ r question log f e) (h : parts.foldlM addPart r = .ok r') :
    Pending r₀ r' question log f { e with rdata := e.rdata ++ parts } := by
  induction parts generalizing r e with
  | nil =>
    cases h
    rwa [List.append_nil]
  | cons part parts ih =>
    rw [List.foldlM_cons] at h
    obtain ⟨r₁, hadd, h⟩ := Loop.bind_eq_ok.mp h
    have one : Pending r₀ r₁ question log f { e with rdata := e.rdata ++ [part] } := by
      cases part with
      | name n => exact pending.addname (valid n List.mem_cons_self) hadd
      | octets s => exact pending.addbytes hadd
    have rest := ih (fun n mem => valid n (List.mem_cons_of_mem _ mem)) one h
    simpa only [List.append_assoc, List.singleton_append] using rest

/-- **A record is added to the answer section.** -/
theorem addRecord_idle (valid : Valid d) (two : type.length = 2) {parts : List Part}
    (names : ∀ n, .name n ∈ parts → Valid n) {r r' : Response} {question : Name} {log : Log}
    (idle : Idle r question log) (isOpen : log.Open .answer)
    (h : addRecord hidettl d type ttl parts r = .ok r') :
    Idle r' question (log.add .answer [replyEntry hidettl d type ttl parts]) := by
  obtain ⟨r₁, hstart, h⟩ := Loop.bind_eq_ok.mp h
  obtain ⟨r₂, hparts, h⟩ := Loop.bind_eq_ok.mp h
  cases Except.ok.inj h
  obtain ⟨f, pending⟩ := rstart_spec idle valid two hstart
  exact (addParts_pending names pending hparts).rfinish isOpen

theorem addRecords_idle (valid : Valid d) (two : type.length = 2) {rdatas : List (List Part)}
    (names : ∀ parts ∈ rdatas, ∀ n, .name n ∈ parts → Valid n) {r r' : Response} {question : Name}
    {log : Log} (idle : Idle r question log) (isOpen : log.Open .answer)
    (h : addRecords hidettl d type ttl rdatas r = .ok r') :
    Idle r' question (log.add .answer (rdatas.map (replyEntry hidettl d type ttl))) := by
  induction rdatas generalizing r log with
  | nil =>
    cases h
    rwa [List.map_nil, Log.add_nil]
  | cons parts rdatas ih =>
    obtain ⟨r₁, hone, h⟩ := Loop.bind_eq_ok.mp h
    have one := addRecord_idle valid two (names parts List.mem_cons_self) idle isOpen hone
    have rest := ih (fun parts mem => names parts (List.mem_cons_of_mem _ mem)) one
      (Log.open_add isOpen _) h
    rwa [← Log.add_append, List.singleton_append] at rest

/-! ### Room -/

theorem addbytes_fits {s : Bytes} {r : Response} {n : Nat} (fits : r.bytes.length ≤ n)
    (room : n + s.length ≤ 65535) :
    ∃ r', addbytes s r = .ok r' ∧ r'.bytes.length ≤ n + s.length := by
  refine ⟨{ r with bytes := r.bytes ++ s }, addbytes_eq_ok.mpr ⟨by omega, rfl⟩, ?_⟩
  rw [List.length_append]
  omega

theorem addname_fits {d : Name} {r : Response} {n : Nat} (fits : r.bytes.length ≤ n)
    (room : n + dnsDomainLength d ≤ 65535) :
    ∃ r', addname d r = .ok r' ∧ r'.bytes.length ≤ n + dnsDomainLength d := by
  unfold dnsDomainLength at room ⊢
  induction d generalizing r n with
  | nil => exact addbytes_fits fits room
  | cons l d ih =>
    simp only [wire_length, span_cons] at ih room ⊢
    unfold addname
    split
    · rename_i e _
      obtain ⟨r', hadd, hlen⟩ := addbytes_fits (s := be16 (49152 + e.2)) fits (by
        rw [be16_length]
        omega)
      rw [be16_length] at hlen
      exact ⟨r', hadd, by omega⟩
    · have entered : (enter (l :: d) r).bytes = r.bytes := by
        unfold enter
        split <;> rfl
      obtain ⟨r₁, hadd, hlen⟩ := addbytes_fits (s := UInt8.ofNat l.length :: l)
        (entered ▸ fits) (by rw [List.length_cons]; omega)
      rw [List.length_cons] at hlen
      obtain ⟨r', hrest, hlen'⟩ := ih hlen (by omega)
      rw [hadd]
      exact ⟨r', hrest, by omega⟩

theorem addParts_fits {parts : List Part} {r : Response} {n : Nat} (fits : r.bytes.length ≤ n)
    (room : n + (parts.map partRoom).sum ≤ 65535) :
    ∃ r', parts.foldlM addPart r = .ok r' ∧ r'.bytes.length ≤ n + (parts.map partRoom).sum := by
  induction parts generalizing r n with
  | nil => exact ⟨r, rfl, fits⟩
  | cons part parts ih =>
    rw [List.map_cons, List.sum_cons] at room ⊢
    have one : ∃ r₁, addPart r part = .ok r₁ ∧ r₁.bytes.length ≤ n + partRoom part := by
      cases part with
      | name d => exact addname_fits fits (by show n + partRoom (.name d) ≤ _; omega)
      | octets s => exact addbytes_fits fits (by show n + partRoom (.octets s) ≤ _; omega)
    obtain ⟨r₁, hadd, hlen⟩ := one
    obtain ⟨r', hrest, hlen'⟩ := ih hlen (by omega)
    rw [List.foldlM_cons, hadd]
    exact ⟨r', hrest, by omega⟩

theorem rstart_fits (two : type.length = 2) {r : Response} {n : Nat} (fits : r.bytes.length ≤ n)
    (room : n + (dnsDomainLength d + 10) ≤ 65535) :
    ∃ r', rstart hidettl d type ttl r = .ok r' ∧ r'.bytes.length ≤ n + (dnsDomainLength d + 10) := by
  obtain ⟨r₁, hname, hlen⟩ := addname_fits (d := d) fits (by omega)
  obtain ⟨r₂, htype, hlen⟩ := addbytes_fits (s := type) hlen (by omega)
  obtain ⟨r₃, hcls, hlen⟩ := addbytes_fits (s := dnsCIn) hlen (by rw [two]; show _ + 2 ≤ _; omega)
  obtain ⟨r₄, httl, hlen⟩ := addbytes_fits (s := be32 (if hidettl then 0 else ttl)) hlen (by
    rw [two, be32_length]
    show _ + 2 + 4 ≤ _
    omega)
  obtain ⟨r₅, hdatalen, hlen⟩ := addbytes_fits (s := [0, 0]) hlen (by
    rw [two, be32_length]
    show _ + 2 + 4 + 2 ≤ _
    omega)
  unfold rstart
  rw [hname, ok_bind, htype, ok_bind, hcls, ok_bind, httl, ok_bind, hdatalen, ok_bind]
  refine ⟨_, rfl, hlen.trans ?_⟩
  rw [two, be32_length]
  show n + dnsDomainLength d + 2 + 2 + 4 + 2 ≤ _
  omega

/-- **A reply that fits with every name written out is built.** -/
theorem addRecords_fits (valid : Valid d) (two : type.length = 2) {rdatas : List (List Part)}
    (names : ∀ parts ∈ rdatas, ∀ n, .name n ∈ parts → Valid n) {r : Response} {question : Name}
    {log : Log} (idle : Idle r question log) (isOpen : log.Open .answer) {n : Nat}
    (fits : r.bytes.length ≤ n) (room : n + (rdatas.map (recordRoom d)).sum ≤ 65535) :
    ∃ r', addRecords hidettl d type ttl rdatas r = .ok r' := by
  induction rdatas generalizing r log n with
  | nil => exact ⟨r, rfl⟩
  | cons parts rdatas ih =>
    rw [List.map_cons, List.sum_cons] at room
    unfold recordRoom at room
    obtain ⟨r₁, hstart, hlen⟩ : ∃ r₁, rstart hidettl d type ttl r = .ok r₁ ∧
        r₁.bytes.length ≤ n + (dnsDomainLength d + 10) := rstart_fits two fits (by omega)
    obtain ⟨r₂, hparts, hlen⟩ : ∃ r₂, parts.foldlM addPart r₁ = .ok r₂ ∧
        r₂.bytes.length ≤ n + (dnsDomainLength d + 10) + (parts.map partRoom).sum :=
      addParts_fits hlen (by omega)
    have hone : addRecord hidettl d type ttl parts r = .ok (rfinish .answer r₂) := by
      unfold addRecord
      rw [hstart, ok_bind]
      show (parts.foldlM addPart r₁ >>= _) = _
      rw [hparts, ok_bind]
    obtain ⟨f, pending⟩ := rstart_spec idle valid two hstart
    have filled := addParts_pending (names parts List.mem_cons_self) pending hparts
    have idle' := addRecord_idle valid two (names parts List.mem_cons_self) idle isOpen hone
    obtain ⟨r', hrest⟩ := ih (fun parts mem => names parts (List.mem_cons_of_mem _ mem)) idle'
      (Log.open_add isOpen _) (n := n + (dnsDomainLength d + 10) + (parts.map partRoom).sum)
      (by rw [filled.rfinish_length]; exact hlen) (by unfold recordRoom; omega)
    exact ⟨r', by
      unfold addRecords at hrest ⊢
      rw [List.foldlM_cons, hone, ok_bind]
      exact hrest⟩

/-- The question, and where it ends. -/
theorem responseQuery_fits (valid : Valid d) {cls : Bytes} (two : type.length = 2)
    (clsTwo : cls.length = 2) (r : Response) :
    ∃ r', responseQuery d type cls r = .ok r' ∧ r'.bytes.length ≤ 16 + dnsDomainLength d := by
  have short := valid.short
  have length : dnsDomainLength d = span d + 1 := wire_length d
  obtain ⟨r₁, hheader, hlen⟩ := addbytes_fits (s := [0, 0, 129, 128, 0, 1, 0, 0, 0, 0, 0, 0])
    (r := { r with bytes := [], names := [] }) (n := 0) (Nat.le_refl 0) (by show 0 + 12 ≤ _; omega)
  obtain ⟨r₂, hname, hlen⟩ := addname_fits (d := d) hlen (by show 0 + 12 + _ ≤ _; omega)
  obtain ⟨r₃, htype, hlen⟩ := addbytes_fits (s := type) hlen (by show 0 + 12 + _ + _ ≤ _; omega)
  obtain ⟨r₄, hcls, hlen⟩ := addbytes_fits (s := cls) hlen (by show 0 + 12 + _ + _ + _ ≤ _; omega)
  unfold responseQuery
  rw [hheader, ok_bind, hname, ok_bind, htype, ok_bind, hcls, ok_bind]
  refine ⟨_, rfl, hlen.trans ?_⟩
  show 0 + 12 + dnsDomainLength d + type.length + cls.length ≤ _
  omega

end Replies

/-! ## The client's question -/

theorem firstSome_skip {β : Type} (xs : List (Except Fault (Option β))) :
    firstSome (.ok none :: xs) = firstSome xs := rfl

theorem firstSome_hit {β : Type} (x : Except Fault β) (xs : List (Except Fault (Option β))) :
    firstSome (x.map some :: xs) = x.map some := by
  cases x <;> rfl

section Questions

variable {σ : Type} {env : Env σ} {w : World σ} {d : Name} {type data : Bytes} {ttl : Nat}
  {rdatas : List (List Part)}

/-- The blocks of the cached answers, for a client who asks for `type`: the one of that type
answers, and the others pass on. -/
theorem cachedSet_eq (any : type ≠ dnsTAny)
    (live : env.store.get w.cache (cacheKey type d) = some (data, ttl))
    (reads : decode type data = some rdatas) (block : Bytes) :
    cachedSet env w d type block =
      if type = block then
        (answer env w (addRecords env.conf.hidettl d type ttl rdatas)).map some
      else .ok none := by
  unfold cachedSet typematch
  rw [decide_eq_false any, Bool.or_false]
  by_cases same : type = block
  · rw [if_pos (decide_eq_true same), if_pos same, ← same, live]
    simp only []
    rw [if_pos (.inr any), reads]
  · rw [if_neg (fun h => same (of_decide_eq_true h)), if_neg same]

theorem cachedAddress_eq (any : type ≠ dnsTAny) (level : w.z.level = 0)
    (live : env.store.get w.cache (cacheKey type d) = some (data, ttl))
    (reads : decode type data = some rdatas) (front : Bytes) {block : Bytes} {size : Nat}
    (address : block = dnsTA ∧ size = 4 ∨ block = dnsTAaaa ∧ size = 16) :
    cachedAddress env w d type block front size =
      if type = block then
        (answer env w (addRecords env.conf.hidettl d type ttl rdatas)).map some
      else .ok none := by
  unfold cachedAddress typematch
  rw [decide_eq_false any, Bool.or_false]
  by_cases same : type = block
  · have items : (decodeItems size (data.length + 1) data).map (fun a => [.octets a]) = rdatas := by
      rw [same] at reads
      unfold decode at reads
      rcases address with ⟨rfl, rfl⟩ | ⟨rfl, rfl⟩
      · exact Option.some.inj reads
      · exact Option.some.inj reads
    rw [if_pos (decide_eq_true same), if_pos same, ← same, live]
    simp only []
    rw [if_neg (fun h => h.2.2 level), if_pos (.inr any), if_neg (not_not_intro level), items]
  · rw [if_neg (fun h => same (of_decide_eq_true h)), if_neg same]

theorem cachedAnswer_eq (short : dnsDomainLength d ≤ 255)
    (noNxdomain : env.store.get w.cache (cacheKey dnsTAny d) = none)
    (noCname : env.store.get w.cache (cacheKey dnsTCname d) = none) (level : w.z.level = 0)
    (any : type ≠ dnsTAny) (axfr : type ≠ dnsTAxfr) (cname : type ≠ dnsTCname)
    (live : env.store.get w.cache (cacheKey type d) = some (data, ttl))
    (reads : decode type data = some rdatas) :
    cachedAnswer env w d type =
      (answer env w (addRecords env.conf.hidettl d type ttl rdatas)).map some := by
  unfold cachedAnswer
  rw [if_neg (by omega), noNxdomain, Option.isSome_none, if_neg Bool.false_ne_true, noCname]
  simp only [cachedSet_eq any live reads,
    cachedAddress_eq any level live reads _ (.inl ⟨rfl, rfl⟩),
    cachedAddress_eq any level live reads _ (.inr ⟨rfl, rfl⟩), if_true]
  by_cases ns : type = dnsTNs
  · rw [if_pos ns, firstSome_hit]
  rw [if_neg ns, firstSome_skip]
  by_cases ptr : type = dnsTPtr
  · rw [if_pos ptr, firstSome_hit]
  rw [if_neg ptr, firstSome_skip]
  by_cases mx : type = dnsTMx
  · rw [if_pos mx, firstSome_hit]
  rw [if_neg mx, firstSome_skip]
  by_cases soa : type = dnsTSoa
  · rw [if_pos soa, firstSome_hit]
  rw [if_neg soa, firstSome_skip]
  by_cases a : type = dnsTA
  · rw [if_pos a, firstSome_hit]
  rw [if_neg a, firstSome_skip]
  by_cases aaaa : type = dnsTAaaa
  · rw [if_pos aaaa, firstSome_hit]
  rw [if_neg aaaa, firstSome_skip, if_neg, firstSome_hit]
  simp only [blockTypes, List.mem_cons, List.not_mem_nil, or_false, not_or]
  exact ⟨any, axfr, cname, ns, ptr, a, mx, aaaa, soa⟩

/-- A fresh query for what is cached is answered at once. -/
theorem newname_cached {conf : Conf} {cls : Bytes} (fresh : w.z.Fresh conf d type cls)
    (more : env.conf.loops ≠ 1) (notIp : globalip d = none) (notSpecial : special d = none)
    (hit : cachedAnswer env { w with z := { w.z with loop := w.z.loop + 1 } } d type =
      (answer env { w with z := { w.z with loop := w.z.loop + 1 } }
        (addRecords env.conf.hidettl d type ttl rdatas)).map some) :
    newname env w = answer env { w with z := { w.z with loop := w.z.loop + 1 } }
      (addRecords env.conf.hidettl d type ttl rdatas) := by
  have loop := fresh.loop
  have bottom := fresh.level
  have named : w.z.name.cell w.z.level = some d := by rw [bottom, fresh.name]
  have hdtype : ({ w.z with loop := w.z.loop + 1 } : Z).dtype = .ok type := by
    unfold Z.dtype
    rw [if_pos bottom, fresh.type]
  unfold newname
  simp only []
  rw [if_neg (by rw [loop]; exact more.symm), w.z.name.get_ok (by omega), ok_bind, named, deref, ok_bind,
    hdtype, ok_bind, hit]
  unfold known
  rw [notIp, notSpecial]
  simp only []
  rw [firstSome_skip, firstSome_hit]
  cases answer env _ _ <;> rfl

/-- The reply of a query that has followed no alias begins with its own name. -/
theorem rqa_fresh {conf : Conf} {z : Z} {cls : Bytes} (within : conf.Within)
    (fresh : z.Fresh conf d type cls) (loop : Nat) (r : Response) :
    rqa conf { z with loop := loop } r = .ok (responseQuery d type cls r) := by
  have none : ∀ n ≤ conf.aliases, rqaFind { z with loop := loop } n = .ok none := by
    intro n limit
    induction n with
    | zero => rfl
    | succ n ih =>
      have fits := within.aliases
      rw [rqaFind, z.aliases.get_ok (by omega), ok_bind, fresh.aliases n limit, Option.isSome_none,
        if_neg Bool.false_ne_true]
      exact ih (by omega)
  unfold rqa
  rw [none _ (Nat.le_refl _), ok_bind]
  simp only []
  rw [z.name.get_ok (by omega), ok_bind, fresh.name, deref, ok_bind, fresh.type, fresh.cls]

/-- A reply that is built is what the client gets. -/
theorem answer_built (within : env.conf.Within) {more : Response → Build} {r₁ r : Response}
    (hrqa : rqa env.conf w.z w.response = .ok (.ok r₁)) (built : more r₁ = .ok r) :
    ∃ w', (answer env w more >>= run env 1) = .ok (some (w', .answered r)) := by
  obtain ⟨z, hclean, _⟩ := cleanup_ok within w.z
  have reply : ((Except.ok r₁ : Build) >>= more) = .ok r := built
  unfold answer
  rw [hrqa, ok_bind, reply]
  simp only []
  rw [hclean, ok_bind]
  exact ⟨_, rfl⟩

/-- A reply that runs over ends the query. -/
theorem answer_overrun (within : env.conf.Within) {more : Response → Build} {r₁ r : Response}
    (hrqa : rqa env.conf w.z w.response = .ok (.ok r₁)) (built : more r₁ = .error r) :
    ∃ w', (answer env w more >>= run env 1) = .ok (some (w', .failed)) := by
  obtain ⟨z, hclean, _⟩ := cleanup_ok within w.z
  have reply : ((Except.ok r₁ : Build) >>= more) = .error r := built
  unfold answer
  rw [hrqa, ok_bind, reply]
  simp only []
  rw [ok_bind, run]
  show ∃ w', (die env _ >>= run env 0) = _
  unfold die
  rw [hclean, ok_bind, ok_bind]
  exact ⟨_, rfl⟩

end Questions

/-- **A saved set answers for itself.** As long as it is live, a client who asks for its owner, in
any letter case, and its type gets the records that were saved, in their order and each with its
data; `doit` gives up only when they do not fit into a reply. The names `doit` knows by itself, an
entry that says that there is no such name, and an alias come first. -/
theorem cached_answer {conf : Conf} {buf : Bytes} {posauthority : Nat} {g : RrSet} {call : CacheSet}
    (saved : saveSet conf buf posauthority g = .ok (some call)) (cname : g.type ≠ dnsTCname)
    (two : g.type.length = 2) {d : Name} (valid : Valid d) (same : dnsDomainEqual d g.owner = true)
    {cls : Bytes} (clsTwo : cls.length = 2) {z₀ z : Z}
    (started : queryStartZ conf d g.type cls z₀ = .ok z) (more : conf.loops ≠ 1)
    (notIp : globalip d = none) (notSpecial : special d = none) {σ : Type} {env : Env σ} {w : World σ}
    (hconf : env.conf = conf) (query : w.z = z) {ttl : Nat}
    (live : env.store.get w.cache call.key = some (call.data, ttl))
    (noNxdomain : env.store.get w.cache (cacheKey dnsTAny d) = none)
    (noCname : env.store.get w.cache (cacheKey dnsTCname d) = none) :
    ∃ rdatas,
      List.Forall₂ (fun record parts => rdataAt buf g.type record = some parts)
        (g.records.filter (kept buf posauthority g.type)) rdatas ∧
      ∃ w',
        (∃ r, doit env 2 w .fresh = .ok (some (w', .answered r)) ∧
          Says r.bytes d { answer := rdatas.map (replyEntry conf.hidettl d g.type ttl) }) ∨
        doit env 2 w .fresh = .ok (some (w', .failed)) ∧
          65535 < 16 + dnsDomainLength d + (rdatas.map (recordRoom d)).sum := by
  subst hconf query
  have within : env.conf.Within := by
    by_contra past
    rw [queryStartZ_range past] at started
    cases started
  obtain ⟨_, hstart, fresh⟩ := queryStartZ_ok within d g.type cls z₀
  cases Except.ok.inj (started.symm.trans hstart)
  obtain ⟨any, axfr, rdatas, reads, forms, decoded⟩ := saveSet_reads cname saved
  refine ⟨rdatas, reads, ?_⟩
  have names : ∀ parts ∈ rdatas, ∀ n, .name n ∈ parts → Valid n := by
    intro parts mem n isName
    obtain ⟨s, form⟩ := forms parts mem
    exact Cached.valid form isName
  have short : dnsDomainLength d ≤ 255 := (wire_length d).trans_le valid.short
  have key : call.key = cacheKey g.type d := by
    rw [saveSet_key saved]
    rw [dnsDomainEqual, Bool.and_eq_true, decide_eq_true_eq, decide_eq_true_eq] at same
    unfold cacheKey
    rw [same.2]
  rw [key] at live
  have answers : newname env w = _ := newname_cached fresh more notIp notSpecial
    (cachedAnswer_eq short noNxdomain noCname fresh.level any axfr cname live decoded)
  obtain ⟨r₁, hquery, room⟩ := responseQuery_fits valid two clsTwo w.response
  have idle := responseQuery_idle valid two clsTwo hquery
  have open' : ({} : Log).Open .answer := ⟨rfl, rfl⟩
  have hrqa : rqa env.conf { w.z with loop := w.z.loop + 1 } w.response = .ok (.ok r₁) := by
    rw [rqa_fresh within fresh, hquery]
  show ∃ w', (∃ r, (newname env w >>= run env 1) = _ ∧ _) ∨ (newname env w >>= run env 1) = _ ∧ _
  rw [answers]
  cases built : addRecords env.conf.hidettl d g.type ttl rdatas r₁ with
  | ok r =>
    obtain ⟨w', hrun⟩ := answer_built within (w := { w with z := _ }) hrqa built
    exact ⟨w', .inl ⟨r, hrun, (addRecords_idle valid two names idle open' built).message⟩⟩
  | error r =>
    obtain ⟨w', hrun⟩ := answer_overrun within (w := { w with z := _ }) hrqa built
    refine ⟨w', .inr ⟨hrun, ?_⟩⟩
    by_contra fits
    obtain ⟨r', whole⟩ : ∃ r', addRecords env.conf.hidettl d g.type ttl rdatas r₁ = .ok r' :=
      addRecords_fits valid two names idle open' room (by omega)
    rw [whole] at built
    cases built

/-- A cache with one entry in it. -/
def oneEntry (call : CacheSet) : Env Unit where
  conf := oneRoot
  store := ⟨fun _ key => if key = call.key then some (call.data, call.ttl) else none, fun _ _ => ()⟩
  draw _ := 0
  transmits := true

/-- Two addresses of `a`. -/
def twoAddresses : Bytes :=
  [1, 97, 0] ++ [0, 1, 0, 1, 0, 0, 0, 60, 0, 4] ++ [10, 0, 0, 1] ++
    [1, 97, 0] ++ [0, 1, 0, 1, 0, 0, 0, 60, 0, 4] ++ [10, 0, 0, 2]

def twoCall : CacheSet := ⟨cacheKey dnsTA [[97]], [10, 0, 0, 1, 10, 0, 0, 2], 60⟩

theorem cached_answer_twoAddresses :
    ∃ rdatas w',
      List.Forall₂ (fun record parts => rdataAt twoAddresses dnsTA record = some parts) [0, 17]
        rdatas ∧
      ((∃ r, doit (oneEntry twoCall) 2 (freshQuery [[65]] dnsTA) .fresh =
          .ok (some (w', .answered r)) ∧
        Says r.bytes [[65]] { answer := rdatas.map (replyEntry false [[65]] dnsTA 60) }) ∨
      doit (oneEntry twoCall) 2 (freshQuery [[65]] dnsTA) .fresh = .ok (some (w', .failed)) ∧
        65535 < 16 + dnsDomainLength [[65]] + (rdatas.map (recordRoom [[65]])).sum) := by
  have saved : saveSet oneRoot twoAddresses 34 ⟨[[97]], dnsTA, 60, [0, 17]⟩ = .ok (some twoCall) := by
    decide +kernel
  obtain ⟨rdatas, reads, w', answers⟩ := cached_answer saved (by decide) rfl
    (d := [[65]]) ⟨by decide, by decide⟩ (by decide +kernel) rfl (freshQuery_started [[65]] dnsTA)
    (by decide) (by decide +kernel) (by decide +kernel)
    (show (oneEntry twoCall).conf = oneRoot from rfl)
    (show (freshQuery [[65]] dnsTA).z = _ from rfl)
    (show (oneEntry twoCall).store.get () twoCall.key = some (twoCall.data, 60) from by decide +kernel)
    (show (oneEntry twoCall).store.get () (cacheKey dnsTAny [[65]]) = none from by decide +kernel)
    (show (oneEntry twoCall).store.get () (cacheKey dnsTCname [[65]]) = none from by decide +kernel)
  exact ⟨rdatas, w', reads, answers⟩

/-- Two addresses of `1.2.3.4`. -/
def numericAddresses : Bytes :=
  [1, 49, 1, 50, 1, 51, 1, 52, 0] ++ [0, 1, 0, 1, 0, 0, 0, 60, 0, 4] ++ [10, 0, 0, 1] ++
    [1, 49, 1, 50, 1, 51, 1, 52, 0] ++ [0, 1, 0, 1, 0, 0, 0, 60, 0, 4] ++ [10, 0, 0, 2]

def numericSet : RrSet := ⟨[[49], [50], [51], [52]], dnsTA, 60, [0, 23]⟩

def numericCall : CacheSet := ⟨cacheKey dnsTA numericSet.owner, [10, 0, 0, 1, 10, 0, 0, 2], 60⟩

/-- The set is in the cache, but a name that is an address answers for itself, with one record. -/
theorem numericSet_unheard :
    saveSet oneRoot numericAddresses 46 numericSet = .ok (some numericCall) ∧
      queryStartZ oneRoot numericSet.owner dnsTA dnsCIn .blank =
        .ok (freshQuery numericSet.owner dnsTA).z ∧
      (oneEntry numericCall).store.get () numericCall.key = some (numericCall.data, 60) ∧
      ∃ w' r, doit (oneEntry numericCall) 2 (freshQuery numericSet.owner dnsTA) .fresh =
          .ok (some (w', .answered r)) ∧
        ¬ Says r.bytes numericSet.owner
          { answer := ([[.octets [10, 0, 0, 1]], [.octets [10, 0, 0, 2]]] : List (List Part)).map
              (replyEntry false numericSet.owner dnsTA 60) } := by
  refine ⟨by decide +kernel, freshQuery_started _ _, by decide +kernel, ?_⟩
  have counted : ((doit (oneEntry numericCall) 2 (freshQuery numericSet.owner dnsTA)
      .fresh).toOption.bind fun o => o.bind fun x =>
        match x.2 with
        | .answered r => some ((r.bytes.drop 6).take 2)
        | _ => none) = some [0, 1] := by
    decide +kernel
  cases hdoit : doit (oneEntry numericCall) 2 (freshQuery numericSet.owner dnsTA) .fresh with
  | error fault =>
    rw [hdoit] at counted
    cases counted
  | ok o =>
    rw [hdoit] at counted
    rcases o with _ | ⟨w', _ | t | r⟩
    · cases counted
    · cases counted
    · cases counted
    · refine ⟨w', r, rfl, fun reply => ?_⟩
      have two : [0, 2] <+: r.bytes.drop 6 :=
        (List.prefix_append _ _).trans (holds_memory.mp reply.counts)
      obtain ⟨rest, hrest⟩ := two
      have one : (r.bytes.drop 6).take 2 = [0, 1] := Option.some.inj counted
      rw [← hrest] at one
      cases one

end TinyDnssec.Dnscache
