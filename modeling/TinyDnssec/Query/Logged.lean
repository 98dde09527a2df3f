import TinyDnssec.Query.Aliases

/-!
# dnscache: what a call writes to the cache

The labels of `doit` read the cache and leave it as it is (`step_spares`); HAVEPACKET alone writes to
it. `doit_logs` says that behind a call the cache is what the calls of `cache_set` that are counted
make of it, one after the other, and that each of them is for what the packet of the call teaches.

What the cache makes of a call of `cache_set` is left open here: the cache is a parameter.
-/

namespace TinyDnssec.Dnscache

open Octets Loop

/-! ## The labels -/

theorem map_some_eq_ok {β : Type} {x : Except Fault β} {y : β} (h : x.map some = .ok (some y)) :
    x = .ok y := by
  cases x with
  | error fault => cases h
  | ok z => exact congrArg Except.ok (Option.some.inj (Except.ok.inj h))

theorem firstSome_mem {β : Type} {xs : List (Except Fault (Option β))} {y : β}
    (h : firstSome xs = .ok (some y)) : ∃ x ∈ xs, x = .ok (some y) := by
  induction xs with
  | nil => cases h
  | cons x xs ih =>
    cases x with
    | error fault => cases h
    | ok o =>
      cases o with
      | some z => exact ⟨_, List.mem_cons_self, h⟩
      | none =>
        obtain ⟨x, mem, hx⟩ := ih h
        exact ⟨x, List.mem_cons_of_mem _ mem, hx⟩

/-- If there is a result, it is so. -/
def Yields {β : Type} (P : β → Prop) (x : Except Fault β) : Prop := ∀ y, x = .ok y → P y

theorem Yields.ok {β : Type} {P : β → Prop} {y : β} (h : P y) : Yields P (.ok y) := by
  rintro _ ⟨⟩
  exact h

theorem Yields.error {β : Type} {P : β → Prop} {fault : Fault} : Yields P (.error fault) := nofun

theorem Yields.bind {α β : Type} {P : β → Prop} {x : Except Fault α} {f : α → Except Fault β}
    (h : ∀ a, Yields P (f a)) : Yields P (x >>= f) := by
  intro y hy
  obtain ⟨a, _, hfa⟩ := bind_eq_ok.mp hy
  exact h a y hfa

theorem Yields.map {β : Type} {P : β → Prop} {x : Except Fault β} (h : Yields P x) :
    Yields (fun o => ∀ y, o = some y → P y) (x.map some) := by
  intro o ho y hy
  subst hy
  exact h y (map_some_eq_ok ho)

variable {σ : Type} {env : Env σ} {w : World σ}

/-- The cache and the calls of the one world are those of the other. -/
def Spares (w : World σ) (y : Step σ) : Prop := y.1.cache = w.cache ∧ y.1.calls = w.calls

/-- A block of NEWNAME leaves the cache alone. -/
abbrev MaySpare (w : World σ) (o : Option (Step σ)) : Prop := ∀ y, o = some y → Spares w y

theorem MaySpare.none : MaySpare w none := nofun

theorem MaySpare.some {y : Step σ} (h : Spares w y) : MaySpare w (some y) := by
  rintro _ ⟨⟩
  exact h

theorem firstSome_spares {blocks : List (Except Fault (Option (Step σ)))}
    (each : ∀ x ∈ blocks, Yields (MaySpare w) x) : Yields (MaySpare w) (firstSome blocks) := by
  intro o ho y hy
  subst hy
  obtain ⟨x, hmem, hx⟩ := firstSome_mem ho
  exact each x hmem _ hx y rfl

theorem answer_spares (more : Response → Build) : Yields (Spares w) (answer env w more) := by
  unfold answer
  refine .bind fun b => ?_
  split
  · exact .ok ⟨rfl, rfl⟩
  · exact .bind fun z => .ok ⟨rfl, rfl⟩

theorem cachedSet_spares (d : Name) (dtype type : Bytes) :
    Yields (MaySpare w) (cachedSet env w d dtype type) := by
  unfold cachedSet
  split
  · split
    · exact .ok .none
    · split
      · split
        · exact .ok (.some ⟨rfl, rfl⟩)
        · exact (answer_spares _).map
      · exact .ok .none
  · exact .ok .none

theorem cachedAddress_spares (d : Name) (dtype type front : Bytes) (size : Nat) :
    Yields (MaySpare w) (cachedAddress env w d dtype type front size) := by
  unfold cachedAddress
  split
  · split
    · exact .ok .none
    · split
      · exact .bind fun ipv6 => .ok (.some ⟨rfl, rfl⟩)
      · split
        · split
          · exact .bind fun z => .ok (.some ⟨rfl, rfl⟩)
          · exact (answer_spares _).map
        · exact .ok .none
  · exact .ok .none

theorem cachedAnswer_spares (d : Name) (dtype : Bytes) :
    Yields (MaySpare w) (cachedAnswer env w d dtype) := by
  unfold cachedAnswer
  split
  · exact .ok .none
  · split
    · exact .ok (.some ⟨rfl, rfl⟩)
    · split
      · simp only []
        split
        · exact .bind fun name => .bind fun name => (answer_spares _).map
        · exact .ok (.some ⟨rfl, rfl⟩)
      · refine firstSome_spares fun x hx => ?_
        simp only [List.mem_cons, List.not_mem_nil, or_false] at hx
        rcases hx with rfl | rfl | rfl | rfl | rfl | rfl | rfl
        case inr.inr.inr.inr.inr.inr =>
          split
          · exact .ok .none
          · exact cachedSet_spares d dtype dtype
        all_goals
          first
          | exact cachedSet_spares d dtype _
          | exact cachedAddress_spares d dtype _ _ _

theorem known_spares (d : Name) (dtype : Bytes) : Yields (MaySpare w) (known env w d dtype) := by
  unfold known
  split
  · split
    · exact .bind fun z => .ok (.some ⟨rfl, rfl⟩)
    · exact (answer_spares _).map
  · split
    · exact .ok .none
    · split
      · exact .ok (.some ⟨rfl, rfl⟩)
      · exact (answer_spares _).map

theorem searchAt_spares (d : Name) : Yields (MaySpare w) (searchAt env w d) := by
  unfold searchAt
  split
  · exact .bind fun servers => .bind fun z => .bind fun control => .ok (.some ⟨rfl, rfl⟩)
  · split
    · split
      · exact .ok .none
      · split
        · exact .ok .none
        · exact .bind fun control => .bind fun servers => .bind fun z => .bind fun z =>
            .ok (.some ⟨rfl, rfl⟩)
    · exact .ok .none

theorem search_spares (d : Name) : Yields (Spares w) (search env w d) := by
  induction d with
  | nil =>
    intro y hy
    obtain ⟨found, hfound, hy⟩ := bind_eq_ok.mp hy
    cases hy
    cases found with
    | none => exact ⟨rfl, rfl⟩
    | some step => exact searchAt_spares [] _ hfound step rfl
  | cons l d ih =>
    intro y hy
    obtain ⟨found, hfound, hy⟩ := bind_eq_ok.mp hy
    cases found with
    | none => exact ih y hy
    | some step =>
      cases hy
      exact searchAt_spares (l :: d) _ hfound _ rfl

theorem newname_spares : Yields (Spares w) (newname env w) := by
  unfold newname
  simp only []
  split
  · exact .ok ⟨rfl, rfl⟩
  · refine .bind fun name => .bind fun d => .bind fun dtype => ?_
    intro y hy
    obtain ⟨found, hfound, hy⟩ := bind_eq_ok.mp hy
    cases found with
    | none =>
      have hspares := search_spares d y hy
      exact hspares
    | some step =>
      cases hy
      obtain ⟨x, hmem, hx⟩ := firstSome_mem hfound
      simp only [List.mem_cons, List.not_mem_nil, or_false] at hmem
      rcases hmem with rfl | rfl
      · have hspares := known_spares d dtype _ hx _ rfl
        exact hspares
      · have hspares := cachedAnswer_spares d dtype _ hx _ rfl
        exact hspares

theorem havens_spares : Yields (Spares w) (havens env w) := by
  unfold havens
  refine .bind fun ⟨z, deeper⟩ => ?_
  simp only []
  split
  · exact .ok ⟨rfl, rfl⟩
  · refine .bind fun block => ?_
    split
    · exact .ok ⟨rfl, rfl⟩
    · refine .bind fun servers => .bind fun dtype => .bind fun name => .bind fun d =>
        .bind fun control => .bind fun _ => ?_
      split
      · exact .ok ⟨rfl, rfl⟩
      · exact .ok ⟨rfl, rfl⟩

theorem lowerlevel_spares : Yields (Spares w) (lowerlevel env w) := by
  unfold lowerlevel
  refine .bind fun name => .bind fun z => ?_
  split
  · exact .error
  · exact .ok ⟨rfl, rfl⟩

theorem giveUp_spares (tell : Response → Response) : Yields (Spares w) (giveUp env tell w) := by
  unfold giveUp
  split
  · exact .ok ⟨rfl, rfl⟩
  · exact answer_spares _

theorem toCname_spares (target : Name) (ttl : Nat) : Yields (Spares w) (toCname env target ttl w) := by
  unfold toCname
  split
  · refine .bind fun last => ?_
    split
    · exact .ok ⟨rfl, rfl⟩
    · exact .bind fun aliases => .bind fun aliasttl => .bind fun name => .bind fun aliases =>
        .bind fun aliasttl => .bind fun name => .ok ⟨rfl, rfl⟩
  · exact .bind fun name => .ok ⟨rfl, rfl⟩

/-- **No label touches the cache.** -/
theorem step_spares (label : Label) : Yields (Spares w) (step env label w) := by
  cases label with
  | newname => exact newname_spares
  | havens => exact havens_spares
  | lowerlevel => exact lowerlevel_spares
  | servfail => exact giveUp_spares servfail
  | nxdomain => exact giveUp_spares nxdomain
  | cname target ttl => exact toCname_spares target ttl
  | die => exact .bind fun z => .ok ⟨rfl, rfl⟩

theorem run_spares (rounds : Nat) {next : Next} {w' : World σ} {r : Result}
    (h : run env rounds (w, next) = .ok (some (w', r))) : Spares w (w', .done r) := by
  induction rounds generalizing w next with
  | zero =>
    cases next with
    | done r' =>
      cases h
      exact ⟨rfl, rfl⟩
    | goto label => cases h
  | succ rounds ih =>
    cases next with
    | done r' =>
      cases h
      exact ⟨rfl, rfl⟩
    | goto label =>
      obtain ⟨⟨w₁, next₁⟩, hstep, h⟩ := bind_eq_ok.mp h
      obtain ⟨hcache, hcalls⟩ := step_spares label _ hstep
      obtain ⟨hcache', hcalls'⟩ := ih h
      exact ⟨hcache'.trans hcache, hcalls'.trans hcalls⟩

/-! ### HAVEPACKET -/

/-- The cache is what the calls that have been added make of it, and `P` holds of each of them. -/
def Logs (store : Store σ) (P : CacheSet → Prop) (w : World σ) (y : Step σ) : Prop :=
  ∃ new, y.1.calls = w.calls ++ new ∧ y.1.cache = new.foldl store.set w.cache ∧ ∀ call ∈ new, P call

variable {store : Store σ} {P : CacheSet → Prop}

theorem Spares.logs {y : Step σ} (h : Spares w y) : Logs store P w y :=
  ⟨[], by rw [h.2, List.append_nil], h.1, nofun⟩

theorem puts_cache (store : Store σ) (calls : List CacheSet) :
    (w.puts store calls).calls = w.calls ++ calls ∧
      (w.puts store calls).cache = calls.foldl store.set w.cache := by
  unfold World.puts
  induction calls generalizing w with
  | nil => exact ⟨(List.append_nil _).symm, rfl⟩
  | cons call calls ih =>
    obtain ⟨hcalls, hcache⟩ := @ih (w.put store call)
    refine ⟨hcalls.trans ?_, hcache⟩
    show w.calls ++ [call] ++ calls = _
    rw [List.append_assoc]
    rfl

/-- Calls, and then a step that leaves the cache alone. -/
theorem Spares.logs_puts {calls : List CacheSet} {y : Step σ} (h : Spares (w.puts store calls) y)
    (each : ∀ call ∈ calls, P call) : Logs store P w y := by
  obtain ⟨hcalls, hcache⟩ := @puts_cache _ w store calls
  exact ⟨calls, h.2.trans hcalls, h.1.trans hcache, each⟩

theorem logs_puts {calls : List CacheSet} (each : ∀ call ∈ calls, P call) (next : Next) :
    Logs store P w (w.puts store calls, next) :=
  Spares.logs_puts ⟨rfl, rfl⟩ each

theorem refer_spares (buf : Bytes) (d : Name) (x : Reading) :
    Yields (Spares w) (refer env w buf d x) := by
  unfold refer
  split
  · exact .ok ⟨rfl, rfl⟩
  · split
    · exact .ok ⟨rfl, rfl⟩
    · refine .bind fun control => .bind fun servers => .bind fun z => .bind fun z' => ?_
      split
      · exact .ok ⟨rfl, rfl⟩
      · exact .ok ⟨rfl, rfl⟩

theorem answered_spares (buf : Bytes) (d : Name) (dtype : Bytes) (x : Reading) :
    Yields (Spares w) (answered env w buf d dtype x) := by
  unfold answered
  split
  · exact .bind fun block => .bind fun servers => .ok ⟨rfl, rfl⟩
  · exact answer_spares _

theorem concluded_logs {buf : Bytes} {d : Name} (control : Name) {dtype : Bytes} {x : Reading}
    (reads : readPacket buf d dtype = some x) :
    Yields (Logs env.store (Learned env.conf buf d control dtype) w)
      (concluded env w buf d dtype x) := by
  unfold concluded
  split
  · exact .ok (Spares.logs ⟨rfl, rfl⟩)
  · split
    · rename_i absent
      refine .ok (logs_puts (fun call hcall => ?_) _)
      obtain ⟨hkey, hdata⟩ := cachegeneric_key (Option.mem_toList.mp hcall)
      exact .inr ⟨hdata, x, reads, .inl ⟨hkey, absent⟩⟩
    · split
      · rename_i denied
        have heach : ∀ call ∈ (saveFinish dtype d (x.scan.soa.getD 0) saveStart).toList,
            Learned env.conf buf d control dtype call := by
          intro call hcall
          obtain ⟨hkey, hdata⟩ := cachegeneric_key (Option.mem_toList.mp hcall)
          exact .inr ⟨hdata, x, reads, .inr ⟨hkey, (Bool.not_eq_true _).mp denied.1, denied.2.1⟩⟩
        simp only []
        split
        · exact .bind fun ipv6 => .ok (Spares.logs_puts ⟨rfl, rfl⟩ heach)
        · exact fun y hy => (answered_spares buf d dtype x y hy).logs_puts heach
      · split
        · exact fun y hy => (answered_spares buf d dtype x y hy).logs
        · exact fun y hy => (refer_spares buf d x y hy).logs

/-- **HAVEPACKET** writes what the packet says of the names the servers asked are in charge of. -/
theorem havepacket_logs {buf : Bytes} {curserver : Fin 16} {y : Step σ}
    (h : havepacket env buf curserver w = .ok y) {d control : Name}
    (name : w.z.name.cell w.z.level = some d) (inControl : w.z.control.cell w.z.level = some control)
    {dtype : Bytes} (asked : w.z.dtype = .ok dtype) :
    Logs env.store (Learned env.conf buf d control dtype) w y := by
  unfold havepacket at h
  simp only [] at h
  split at h
  · cases h
    exact Spares.logs ⟨rfl, rfl⟩
  · obtain ⟨_, hget, h⟩ := bind_eq_ok.mp h
    obtain ⟨_, hcontrol, h⟩ := bind_eq_ok.mp h
    obtain ⟨_, hget', h⟩ := bind_eq_ok.mp h
    obtain ⟨_, hd, h⟩ := bind_eq_ok.mp h
    obtain ⟨dtype', hdtype, h⟩ := bind_eq_ok.mp h
    have hdtype : w.z.dtype = .ok dtype' := hdtype
    cases Except.ok.inj (hdtype.symm.trans asked)
    obtain ⟨_, rfl⟩ := Arr.get_eq_ok.mp hget
    obtain ⟨_, rfl⟩ := Arr.get_eq_ok.mp hget'
    cases Option.some.inj ((deref_eq_ok.mp hcontrol).symm.trans inControl)
    cases Option.some.inj ((deref_eq_ok.mp hd).symm.trans name)
    split at h
    · cases h
      exact Spares.logs ⟨rfl, rfl⟩
    · rename_i x reads
      have heach : ∀ call ∈ filed (file env.conf buf control
          (x.numanswers + x.numauthority + x.numglue) x.posanswers x.posauthority),
          Learned env.conf buf d control dtype call := by
        intro call hcall
        obtain ⟨ps, parsed, isFiled⟩ := file_filed env.conf buf control x.posauthority call hcall
        exact .inl ⟨ps, _, readPacket_sections reads parsed, isFiled⟩
      split at h
      · obtain ⟨block, _, h⟩ := bind_eq_ok.mp h
        obtain ⟨servers, _, h⟩ := bind_eq_ok.mp h
        cases h
        exact Spares.logs ⟨rfl, rfl⟩
      · split at h
        · rename_i hfile
          rw [hfile] at heach
          cases h
          have hlogs : Logs env.store (Learned env.conf buf d control dtype)
              { w with z := { w.z with loop := w.z.loop + 1 } } _ := logs_puts heach (.goto .die)
          exact hlogs
        · rename_i hfile
          rw [hfile] at heach
          cases h
          have hlogs : Logs env.store (Learned env.conf buf d control dtype)
              { w with z := { w.z with loop := w.z.loop + 1 } } _ := logs_puts heach (.goto .nxdomain)
          exact hlogs
        · rename_i calls hfile
          rw [hfile] at heach
          obtain ⟨new, hcalls, hcache, hnew⟩ := concluded_logs control reads y h
          obtain ⟨hcalls', hcache'⟩ :=
            puts_cache (w := { w with z := { w.z with loop := w.z.loop + 1 } }) env.store calls
          refine ⟨calls ++ new, ?_, ?_, List.forall_mem_append.mpr ⟨heach, hnew⟩⟩
          · rw [hcalls, hcalls', List.append_assoc]
          · rw [hcache, hcache', List.foldl_append]

/-- What the entrance of a call can teach. -/
def Entrance.Teaches (conf : Conf) (z : Z) (call : CacheSet) (entry : Entrance) : Prop :=
  ∃ buf curserver d control dtype, entry = .packet buf curserver ∧ z.name.cell z.level = some d ∧
    z.control.cell z.level = some control ∧ control <:+ d ∧ z.dtype = .ok dtype ∧
    Learned conf buf d control dtype call

/-- **A call of `doit`** leaves the cache as the calls of `cache_set` that it adds make it, and these
are for what its packet teaches. -/
theorem doit_logs {rounds n : Nat} {entry : Entrance} {w' : World σ} {r : Result}
    (called : Called env.conf n w.z entry) (h : doit env rounds w entry = .ok (some (w', r))) :
    Logs env.store (entry.Teaches env.conf w.z) w (w', .done r) := by
  obtain ⟨⟨w₁, next⟩, hentered, h⟩ := bind_eq_ok.mp h
  have hlogs : Logs env.store (entry.Teaches env.conf w.z) w (w₁, next) := by
    cases entry with
    | fresh =>
      cases hentered
      exact Spares.logs ⟨rfl, rfl⟩
    | packet buf curserver =>
      obtain ⟨_, waiting, _⟩ := called.ready
      obtain ⟨d, control, hd, hcontrol, htail⟩ := waiting.2 w.z.level (Nat.lt_succ_self _)
      obtain ⟨dtype, hdtype⟩ := dtype_ok (waiting.1.room called.ready.1)
      obtain ⟨new, hcalls, hcache, hnew⟩ := havepacket_logs hentered hd hcontrol hdtype
      exact ⟨new, hcalls, hcache, fun call hcall =>
        ⟨buf, curserver, d, control, dtype, rfl, hd, hcontrol, htail, hdtype, hnew call hcall⟩⟩
    | failed =>
      obtain ⟨_, _, hentered⟩ := bind_eq_ok.mp hentered
      obtain ⟨_, _, hentered⟩ := bind_eq_ok.mp hentered
      cases hentered
      exact Spares.logs ⟨rfl, rfl⟩
  obtain ⟨new, hcalls, hcache, hnew⟩ := hlogs
  obtain ⟨hcache', hcalls'⟩ := run_spares rounds h
  exact ⟨new, hcalls'.trans hcalls, hcache'.trans hcache, hnew⟩

end TinyDnssec.Dnscache
