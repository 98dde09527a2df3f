import TinyDnssec.Cache.Lossy
import TinyDnssec.Query.Followed

/-!
# dnscache: the cache between the queries

All queries share one cache. `ringStore` is the cache of `cache.c` as the queries see it, and it keeps
what it is given (`ringStore_keeps`). A call of `doit` writes nothing to it but the calls that are
counted. So whatever the queries are, in whichever order they are worked on, and whatever packets
they are answered with, what a lookup gives was learned from the servers in charge of the name
(`cached_bailiwick`); and the cache is one that the replies with aliases can rely on
(`Shared.served`). That the servers in charge tell the truth is not said.
-/

namespace TinyDnssec.Dnscache

open Octets Loop

/-! ## The cache of `cache.c` -/

/-- The entries of a ring come from calls of `cache_set`. -/
def Filled (siphash : Bytes → UInt64) (cache : Cache) (calls : List CacheSet) : Prop :=
  ∃ older newer, Ring siphash cache older newer ∧
    ∀ e ∈ older ++ newer, ∃ call ∈ calls, call.key = e.key ∧ call.data = e.data

/-- A cache that keeps its invariant, with the calls that have filled it. -/
structure RingCache (siphash : Bytes → UInt64) where
  cache : Cache
  calls : List CacheSet
  filled : Filled siphash cache calls

section

variable {siphash : Bytes → UInt64}

theorem filled_init (cachesize : Nat) : Filled siphash (cacheInit cachesize) [] :=
  ⟨[], [], cacheInit_ring cachesize, nofun⟩

/-- What is in the ring behind a call was there before, or the call has brought it. -/
theorem Filled.cacheSet {c : Cache} {calls : List CacheSet} (h : Filled siphash c calls) (cur : Nat)
    (call : CacheSet) : ∃ c', cacheSet siphash cur call.key call.data call.ttl c = .ok c' ∧
      Filled siphash c' (calls ++ [call]) := by
  obtain ⟨older, newer, hring, hcalls⟩ := h
  obtain ⟨c', older', newer', hrun, ⟨hring', _, _, hsuffix⟩, -⟩ :=
    hring.cacheSet cur call.key call.data call.ttl
  refine ⟨c', hrun, older', newer', hring', fun e he => ?_⟩
  rcases List.mem_append.mp (hsuffix.mem he) with before | new
  · obtain ⟨call', hmem, hspec⟩ := hcalls e before
    exact ⟨call', List.mem_append_left _ hmem, hspec⟩
  · obtain ⟨hkey, hdata⟩ := newEntry_fields (Option.mem_toList.mp new)
    exact ⟨call, List.mem_append_right _ (List.mem_singleton_self call), hkey.symm, hdata.symm⟩

theorem Filled.of_cacheSet {c c' : Cache} {calls : List CacheSet} (h : Filled siphash c calls)
    {cur : Nat} {call : CacheSet}
    (run : Dnscache.cacheSet siphash cur call.key call.data call.ttl c = .ok c') :
    Filled siphash c' (calls ++ [call]) := by
  obtain ⟨c'', hrun, hfilled⟩ := h.cacheSet cur call
  cases Except.ok.inj (run.symm.trans hrun)
  exact hfilled

def RingCache.init (siphash : Bytes → UInt64) (cachesize : Nat) : RingCache siphash where
  cache := cacheInit cachesize
  calls := []
  filled := filled_init cachesize

/-- The operations, with the label that the clock shows at a lookup or when an entry is made. They
never stop at an impossible place. -/
def ringStore (siphash : Bytes → UInt64) (clock : RingCache siphash → Bytes → Nat) :
    Store (RingCache siphash) where
  get c key :=
    match cacheGet siphash (clock c key) key c.cache with
    | .ok answer => answer
    | .error _ => none
  set c call :=
    match h : cacheSet siphash (clock c call.key) call.key call.data call.ttl c.cache with
    | .ok c' => ⟨c', c.calls ++ [call], c.filled.of_cacheSet h⟩
    | .error _ => c

variable {clock : RingCache siphash → Bytes → Nat} {c : RingCache siphash}

/-- **What a lookup gives** was brought by a call for its key. -/
theorem RingCache.cacheGet_call {cur : Nat} {key data : Bytes} {ttl : Nat}
    (live : cacheGet siphash cur key c.cache = .ok (some (data, ttl))) :
    ∃ call ∈ c.calls, call.key = key ∧ call.data = data := by
  obtain ⟨older, newer, hring, hcalls⟩ := c.filled
  obtain ⟨e, he, rfl, rfl⟩ := hring.cacheGet_entry live
  exact hcalls e he

theorem ringStore_set (call : CacheSet) :
    ((ringStore siphash clock).set c call).calls = c.calls ++ [call] ∧
      cacheSet siphash (clock c call.key) call.key call.data call.ttl c.cache =
        .ok ((ringStore siphash clock).set c call).cache := by
  obtain ⟨c', hrun, _⟩ := c.filled.cacheSet (clock c call.key) call
  unfold ringStore
  simp only []
  split
  · rename_i h
    exact ⟨rfl, h⟩
  · rename_i h
    cases h.symm.trans hrun

theorem ringStore_get {key : Bytes} {answer : Bytes × Nat}
    (live : (ringStore siphash clock).get c key = some answer) :
    cacheGet siphash (clock c key) key c.cache = .ok (some answer) := by
  unfold ringStore at live
  simp only [] at live
  split at live
  · rename_i h
    rw [h, live]
  · cases live

/-- **The cache of `cache.c` keeps what it is given.** -/
theorem ringStore_keeps : (ringStore siphash clock).Keeps fun c call => call ∈ c.calls where
  get live := RingCache.cacheGet_call (ringStore_get live)
  set h := by
    rw [(ringStore_set _).1] at h
    exact (List.mem_append.mp h).imp_right List.mem_singleton.mp

end

/-! ## All queries -/

/-- The caches that the calls of any queries leave, one after the other, from an empty one on. Each
call is on a query that may stand so, and at times of its own. -/
inductive Shared (conf : Conf) (siphash : Bytes → UInt64) : RingCache siphash → Prop
  | init (cachesize : Nat) : Shared conf siphash (.init siphash cachesize)
  | call {c : RingCache siphash} {env : Env (RingCache siphash)}
      {clock : RingCache siphash → Bytes → Nat} {n rounds : Nat} {entry : Entrance}
      {w w' : World (RingCache siphash)} {r : Result} (before : Shared conf siphash c)
      (same : env.conf = conf) (store : env.store = ringStore siphash clock)
      (called : Called conf n w.z entry) (cache : w.cache = c)
      (done : doit env rounds w entry = .ok (some (w', r))) : Shared conf siphash w'.cache

/-- Some packet, processed by a query that may stand so, has taught what a call of `cache_set` wrote. -/
def Taught (conf : Conf) (call : CacheSet) : Prop :=
  ∃ n z entry, Called conf n z entry ∧ entry.Teaches conf z call

section

variable {conf : Conf} {siphash : Bytes → UInt64} {clock : RingCache siphash → Bytes → Nat}

theorem foldl_calls (new : List CacheSet) (c : RingCache siphash) :
    (new.foldl (ringStore siphash clock).set c).calls = c.calls ++ new := by
  induction new generalizing c with
  | nil => exact (List.append_nil _).symm
  | cons call new ih =>
    rw [List.foldl_cons, ih, (ringStore_set call).1, List.append_assoc]
    rfl

/-- Every call that has filled the cache was taught. -/
theorem Shared.taught {c : RingCache siphash} (h : Shared conf siphash c) :
    ∀ call ∈ c.calls, Taught conf call := by
  induction h with
  | init cachesize => exact nofun
  | @call c env clock n rounds entry w w' r before same store called cache done ih =>
    subst same cache
    obtain ⟨new, _, hcache, hnew⟩ := doit_logs called done
    have hcalls : w'.cache.calls = w.cache.calls ++ new := by
      rw [show w'.cache = _ from hcache, store, foldl_calls]
    rw [hcalls]
    exact List.forall_mem_append.mpr
      ⟨ih, fun call hcall => ⟨n, w.z, entry, called, hnew call hcall⟩⟩

/-- What a packet teaches is what `doit` writes. -/
theorem Learned.written {buf : Bytes} {d control : Name} {dtype : Bytes} {call : CacheSet}
    (learned : Learned conf buf d control dtype call) : Written conf call := by
  rcases learned with ⟨ps, posauthority, sections, g, isSet, _, saved⟩ | ⟨data, _⟩
  · exact .inr ⟨buf, posauthority, ps, g, sections, isSet, saved⟩
  · exact .inl data

/-- The shared cache serves every query: it keeps what it is given, and `doit` alone has filled it. -/
theorem Shared.served {env : Env (RingCache siphash)} {w : World (RingCache siphash)}
    (shared : Shared conf siphash w.cache) (same : env.conf = conf)
    (store : env.store = ringStore siphash clock) : Served env w := by
  subst same
  refine ⟨fun c call => call ∈ c.calls, store ▸ ringStore_keeps, fun call hcall => ?_⟩
  obtain ⟨_, _, _, _, _, _, _, _, _, _, _, _, _, _, learned⟩ := shared.taught call hcall
  exact learned.written

/-- **No foreign data in the cache.** Whatever the queries of a server are, in whichever order they
are worked on, and whatever packets come: what a lookup finds for a key is what a packet said, when
servers in control of a tail of the name asked for had been asked. Either it is that the name asked
for has nothing, under ANY or the type asked for, or it is a record set of the packet, saved under
its type and owner, and this is in their domain. -/
theorem cached_bailiwick {c : RingCache siphash} (shared : Shared conf siphash c) {cur : Nat}
    {key data : Bytes} {ttl : Nat}
    (live : cacheGet siphash cur key c.cache = .ok (some (data, ttl))) :
    ∃ n z buf curserver d control, Called conf n z (.packet buf curserver) ∧
      z.name.cell z.level = some d ∧ z.control.cell z.level = some control ∧ control <:+ d ∧
      ((data = [] ∧ ∃ type, (type = dnsTAny ∨ z.dtype = .ok type) ∧ key = cacheKey type d) ∨
        ∃ ps posauthority g call tail, Sections buf ps posauthority ∧ IsSet buf ps g ∧
          g.type.length = 2 ∧ key = cacheKey g.type g.owner ∧
          saveSet conf buf posauthority g = .ok (some call) ∧ call.data = data ∧
          tail <:+ g.owner ∧ dnsDomainEqual tail control = true ∧
          rootsSame conf.roots g.owner control = true) := by
  obtain ⟨call, hcall, rfl, rfl⟩ := c.cacheGet_call live
  obtain ⟨n, z, entry, called, buf, curserver, d, control, dtype, rfl, hd, hcontrol, htail, hdtype,
    learned⟩ := shared.taught call hcall
  refine ⟨n, z, buf, curserver, d, control, called, hd, hcontrol, htail, ?_⟩
  rcases learned with ⟨ps, posauthority, sections, isFiled⟩ | ⟨data, x, _, ⟨key, _⟩ | ⟨key, _⟩⟩
  · obtain ⟨g, tail, isSet, saved, key, suffix, equal, group⟩ := isFiled.place
    exact .inr ⟨ps, posauthority, g, call, tail, sections, isSet, isSet.type_two sections, key, saved,
      rfl, suffix, equal, group⟩
  · exact .inl ⟨data, dnsTAny, .inl rfl, key⟩
  · exact .inl ⟨data, dtype, .inr hdtype, key⟩

/-- A server with one root and a small cache. -/
def ringEnv : Env (RingCache fun _ => 0) where
  conf := oneRoot
  store := ringStore (fun _ => 0) fun _ _ => 100
  draw _ := 0
  transmits := true

def ringStarted : World (RingCache fun _ => 0) :=
  ⟨(freshQuery [[97]] dnsTA).z, .init _ 400, [], ⟨[], [], 0, 0⟩⟩

/-- Behind the call that asks the root server. -/
def ringWaiting : World (RingCache fun _ => 0) :=
  (sentTo (doit ringEnv 20 ringStarted .fresh)).getD ringStarted

/-- What is cached of the packet for the addresses of `c`. -/
def ringAnswer (c : RingCache fun _ => 0) : Option (Bytes × Nat) :=
  (ringStore (fun _ => 0) fun _ _ => 110).get c (cacheKey dnsTA [[99]])

/-- The cache behind a call that has come to an end. -/
def cacheBehind {σ : Type} : Except Fault (Option (World σ × Result)) → Option (World σ × Result)
  | .ok (some behind) => some behind
  | _ => none

theorem cacheBehind_eq_some {σ : Type} {x : Except Fault (Option (World σ × Result))}
    {behind : World σ × Result} (h : cacheBehind x = some behind) : x = .ok (some behind) := by
  unfold cacheBehind at h
  split at h
  · cases h
    rfl
  · cases h

theorem called_ringWaiting : Called oneRoot 1 ringWaiting.z (.packet twoAliases 0) ∧
    Shared oneRoot (fun _ => 0) ringWaiting.cache := by
  have sent : (sentTo (doit ringEnv 20 ringStarted .fresh)).isSome := by decide +kernel
  obtain ⟨w, hw⟩ := Option.isSome_iff_exists.mp sent
  obtain ⟨t, hdoit⟩ := sentTo_eq_some hw
  have reached : ringWaiting = w := by
    unfold ringWaiting
    rw [hw]
    rfl
  have first : Called oneRoot 0 ringStarted.z .fresh :=
    .start (by decide) (freshQuery_started [[97]] dnsTA)
  rw [reached]
  have same : ringEnv.conf = oneRoot := rfl
  have store : ringEnv.store = ringStore (fun _ => 0) fun _ _ => 100 := rfl
  exact ⟨.again first same rfl hdoit nofun, .call (.init 400) same store first rfl hdoit⟩

/-- The address of `c` is in the cache, and a packet had it as a record set of its own. -/
theorem cached_bailiwick_ringAnswer :
    ∃ n z buf curserver d control ps posauthority g call tail,
      Called oneRoot n z (.packet buf curserver) ∧ z.name.cell z.level = some d ∧
      z.control.cell z.level = some control ∧ control <:+ d ∧ Sections buf ps posauthority ∧
      IsSet buf ps g ∧ cacheKey dnsTA [[99]] = cacheKey g.type g.owner ∧
      saveSet oneRoot buf posauthority g = .ok (some call) ∧ call.data = [10, 0, 0, 1] ∧
      tail <:+ g.owner ∧ dnsDomainEqual tail control = true := by
  have answered : ((cacheBehind (doit ringEnv 20 ringWaiting (.packet twoAliases 0))).bind
      fun behind => ringAnswer behind.1.cache) = some ([10, 0, 0, 1], 10) := by decide +kernel
  obtain ⟨behind, hbehind, live⟩ := Option.bind_eq_some_iff.mp answered
  have hdoit := cacheBehind_eq_some hbehind
  obtain ⟨called, shared⟩ := called_ringWaiting
  have same : ringEnv.conf = oneRoot := rfl
  have store : ringEnv.store = ringStore (fun _ => 0) fun _ _ => 100 := rfl
  obtain ⟨n, z, buf, curserver, d, control, hcalled, hd, hcontrol, htail, hdata⟩ :=
    cached_bailiwick (.call shared same store called rfl hdoit) (ringStore_get live)
  obtain ⟨ps, posauthority, g, call, tail, sections, isSet, _, key, saved, data, suffix, equal, _⟩ :=
    hdata.resolve_left fun empty => absurd empty.1 (by decide)
  exact ⟨n, z, buf, curserver, d, control, ps, posauthority, g, call, tail, hcalled, hd, hcontrol,
    htail, sections, isSet, key, saved, data, suffix, equal⟩

end

end TinyDnssec.Dnscache
