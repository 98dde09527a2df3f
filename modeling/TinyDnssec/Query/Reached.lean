import TinyDnssec.Query.Inside

/-!
# dnscache: the runs of a query

A query starts with `query_start`, which calls `doit` once, and as long as a call has sent a packet,
`query_get` calls it again: with the packet that came back, or without one. Between the calls the
cache belongs to the other queries as well. `Called` says what `doit` can be called on, and after how
many calls; `Called.ready` is the invariant of these runs.

How long a query takes, and that it ends with an answer, is not established: a limit may end it first.
-/

namespace TinyDnssec.Dnscache

open Octets

/-- What `doit` can be called on after `n` calls that sent a packet each. The environment, the cache
and the response buffer are anew those of the moment at every call. -/
inductive Called (conf : Conf) : Nat → Z → Entrance → Prop
  | start {z₀ z : Z} {dn : Name} {type cls : Bytes} (allowed : type ≠ dnsTAxfr)
      (started : queryStartZ conf dn type cls z₀ = .ok z) : Called conf 0 z .fresh
  | again {n : Nat} {z : Z} {entry entry' : Entrance} {σ : Type} {env : Env σ} {w w' : World σ}
      {rounds : Nat} {t : Transmit} (before : Called conf n z entry) (same : env.conf = conf)
      (query : w.z = z) (sent : doit env rounds w entry = .ok (some (w', .sent t)))
      (returns : entry' ≠ .fresh) : Called conf (n + 1) w'.z entry'

/-- The labels a call goes through. -/
def Passes {σ : Type} (env : Env σ) : Step σ → Step σ → Prop :=
  Relation.ReflTransGen fun x y => ∃ w label, x = (w, .goto label) ∧ step env label w = .ok y

/-- What a call of `doit` needs. -/
def Entrance.Ready (conf : Conf) (z : Z) : Entrance → Prop
  | .fresh => z.Sound conf ∧ z.Named
  | .packet _ _ => z.Waiting conf
  | .failed => z.Waiting conf

/-- How far a call is from the end of the query. -/
def Entrance.rank (conf : Conf) (z : Z) : Entrance → Nat
  | .fresh => Label.newname.rank conf z + 1
  | .packet _ _ => z.rank conf
  | .failed => z.rank conf

/-! ## One label -/

variable {σ : Type}

theorem Next.below_mono {conf : Conf} {rank rank' : Nat} {z : Z} {next : Next} (le : rank ≤ rank')
    (below : next.below conf rank z) : next.below conf rank' z := by
  cases next with
  | goto label => exact Nat.lt_of_lt_of_le below le
  | done r =>
    cases r with
    | sent t => exact Nat.lt_of_lt_of_le below le
    | failed => trivial
    | answered r => trivial

theorem Leads.mono {conf : Conf} {rank rank' : Nat} {calls : List CacheSet}
    {x : Except Fault (Step σ)} (le : rank ≤ rank') (leads : Leads conf rank calls x) :
    Leads conf rank' calls x := by
  obtain ⟨w, next, hx, fine, below, rest⟩ := leads
  exact ⟨w, next, hx, fine, Next.below_mono le below, rest⟩

section Calls

variable {env : Env σ} (within : env.conf.Within) {w : World σ}
include within

/-- **One lemma for all labels.** -/
theorem step_leads {label : Label} (ready : label.Ready env.conf w.z)
    (loop : w.z.loop ≤ env.conf.loops) :
    Leads env.conf (label.rank env.conf w.z) w.calls (step env label w) := by
  cases label with
  | newname => exact newname_leads within ready.1 ready.2
  | havens => exact havens_leads within ready.1 ready.2
  | lowerlevel => exact lowerlevel_leads within ready.1 ready.2
  | servfail => exact giveUp_leads within ready servfail
  | nxdomain => exact giveUp_leads within ready nxdomain
  | cname target ttl => exact toCname_leads within ready target ttl
  | die => exact die_leads within loop

/-- The labels of a run, by induction on the rounds: they do not fault, they reach a return when
there are as many rounds as the rank says, and no call of `cache_set` is among them. -/
theorem run_spec {rank : Nat} {next : Next} (fine : next.Fine env.conf w.z)
    (below : next.below env.conf rank w.z) (loop : w.z.loop ≤ env.conf.loops) (rounds : Nat) :
    ∃ o, run env rounds (w, next) = .ok o ∧ (rank ≤ rounds → o.isSome) ∧
      ∀ w' r, o = some (w', r) → r.Fine env.conf w'.z ∧ (Next.done r).below env.conf rank w'.z ∧
        w'.calls = w.calls := by
  induction rounds generalizing rank w next with
  | zero =>
    cases next with
    | done r =>
      refine ⟨some (w, r), rfl, fun _ => rfl, ?_⟩
      rintro _ _ ⟨⟩
      exact ⟨fine, below, rfl⟩
    | goto label =>
      have below : label.rank env.conf w.z < rank := below
      exact ⟨none, rfl, fun enough => absurd enough (by omega), nofun⟩
  | succ rounds ih =>
    cases next with
    | done r =>
      refine ⟨some (w, r), rfl, fun _ => rfl, ?_⟩
      rintro _ _ ⟨⟩
      exact ⟨fine, below, rfl⟩
    | goto label =>
      have below : label.rank env.conf w.z < rank := below
      obtain ⟨w₁, next₁, hstep, fine₁, below₁, calls₁, loop₁⟩ := step_leads within fine loop
      obtain ⟨o, hrun, ends, result⟩ := ih fine₁ below₁ loop₁
      refine ⟨o, ?_, fun enough => ends (by omega), ?_⟩
      · rw [run, hstep, ok_bind, hrun]
      · intro w' r ho
        obtain ⟨fine', below', calls'⟩ := result w' r ho
        exact ⟨fine', Next.below_mono (Nat.le_of_lt below) below', calls'.trans calls₁⟩

/-- Every label that is passed is in order. -/
theorem passes_fine {x : Step σ} (passes : Passes env (w, next) x)
    (fine : next.Fine env.conf w.z) (loop : w.z.loop ≤ env.conf.loops) :
    x.2.Fine env.conf x.1.z ∧ x.1.z.loop ≤ env.conf.loops := by
  induction passes with
  | refl => exact ⟨fine, loop⟩
  | tail _ one ih =>
    obtain ⟨w₁, label, rfl, hstep⟩ := one
    obtain ⟨w₂, next₂, hstep₂, fine₂, _, _, loop₂⟩ := step_leads within ih.1 ih.2
    cases Except.ok.inj (hstep.symm.trans hstep₂)
    exact ⟨fine₂, loop₂⟩

/-! ## One call -/

/-- What a packet can have taught, at any entry: nothing, where there is no packet. -/
def Entrance.Taught (conf : Conf) (z : Z) (new : List CacheSet) : Entrance → Prop
  | .packet buf _ => ∃ d control dtype, z.name.cell z.level = some d ∧
      z.control.cell z.level = some control ∧ control <:+ d ∧ z.dtype = .ok dtype ∧
      ∀ call ∈ new, Learned conf buf d control dtype call
  | _ => new = []

theorem entered_leads {entry : Entrance} (ready : entry.Ready env.conf w.z) :
    ∃ new, entry.Taught env.conf w.z new ∧
      Leads env.conf (entry.rank env.conf w.z) (w.calls ++ new) (entered env w entry) := by
  cases entry with
  | fresh =>
    refine ⟨[], rfl, .goto ready (Nat.lt_succ_self _) (List.append_nil _).symm ?_⟩
    exact Nat.le_of_lt ready.1.loop
  | packet buf curserver =>
    obtain ⟨d, control, dtype, hd, hcontrol, tail, hdtype, new, learned, leads⟩ :=
      havepacket_learns within ready buf curserver
    refine ⟨new, ⟨d, control, dtype, hd, hcontrol, tail, hdtype, learned⟩, leads.mono ?_⟩
    show _ ≤ 64 * (env.conf.loops - w.z.loop) + 8 * w.z.level + 3
    omega
  | failed =>
    obtain ⟨sound, rooted⟩ := ready
    obtain ⟨d, _, hd, _⟩ := rooted w.z.level (Nat.lt_succ_self _)
    refine ⟨[], rfl, ?_⟩
    unfold entered
    rw [w.z.name.get_ok (sound.room within), ok_bind, hd, deref, ok_bind]
    refine .goto sound ?_ (List.append_nil _).symm (Nat.le_of_lt sound.loop)
    show 64 * (env.conf.loops - w.z.loop) + 8 * w.z.level + 2 < _ + 3
    omega

/-- **One call**: it does not fault, it comes to an end, and a packet is waited for only with less to
do than before. -/
theorem doit_spec {entry : Entrance} (ready : entry.Ready env.conf w.z) (rounds : Nat) :
    ∃ o, doit env rounds w entry = .ok o ∧ (entry.rank env.conf w.z ≤ rounds → o.isSome) ∧
      ∀ w' r, o = some (w', r) → r.Fine env.conf w'.z ∧
        (∀ t, r = .sent t → w'.z.rank env.conf < entry.rank env.conf w.z) ∧
        ∃ new, w'.calls = w.calls ++ new ∧ entry.Taught env.conf w.z new := by
  obtain ⟨new, taught, w₁, next, hentered, fine, below, calls, loop⟩ := entered_leads within ready
  obtain ⟨o, hrun, ends, result⟩ := run_spec within fine below loop rounds
  refine ⟨o, ?_, ends, ?_⟩
  · unfold doit
    rw [hentered, ok_bind, hrun]
  · intro w' r ho
    obtain ⟨fine', below', calls'⟩ := result w' r ho
    refine ⟨fine', ?_, new, calls'.trans calls, taught⟩
    rintro t rfl
    exact below'

end Calls

/-! ## Runs -/

/-- A query that has just been started. -/
structure Z.Fresh (conf : Conf) (dn : Name) (type cls : Bytes) (z : Z) : Prop where
  loop : z.loop = 0
  level : z.level = 0
  name : z.name.cell 0 = some dn
  type : z.type = type
  cls : z.cls = cls
  aliases : ∀ i < conf.aliases, z.aliases.cell i = none

theorem Z.Fresh.sound {conf : Conf} {dn : Name} {type cls : Bytes} {z : Z}
    (fresh : z.Fresh conf dn type cls) : z.Sound conf where
  loop := fresh.loop ▸ effective_pos (by omega)
  level := fresh.level ▸ effective_pos (by omega)
  rooted i below := absurd (fresh.level ▸ below) (Nat.not_lt_zero i)
  aliased i limit here := by
    rw [fresh.aliases (i + 1) limit] at here
    cases here
  asked := ⟨dn, fresh.name⟩

theorem Z.Fresh.named {conf : Conf} {dn : Name} {type cls : Bytes} {z : Z}
    (fresh : z.Fresh conf dn type cls) : z.Named :=
  ⟨dn, fresh.level ▸ fresh.name⟩

/-- A query can be started when the limits are within the arrays, and not otherwise. -/
theorem queryStartZ_ok {conf : Conf} (within : conf.Within) (dn : Name) (type cls : Bytes) (z₀ : Z) :
    ∃ z, queryStartZ conf dn type cls z₀ = .ok z ∧ z.Fresh conf dn type cls := by
  obtain ⟨z, hclean, _, hcell⟩ := cleanup_ok within z₀
  unfold queryStartZ
  rw [hclean, ok_bind]
  simp only []
  rw [z.name.set_ok (by omega), ok_bind, z.ipv6.set_ok (by omega), ok_bind]
  refine ⟨_, rfl, rfl, rfl, ?_, rfl, rfl, ?_⟩
  · show Function.update z.name.cell 0 (some dn) 0 = _
    rw [Function.update_self]
  · intro i limit
    show z.aliases.cell i = none
    rw [hcell, if_pos limit]

/-- A free past the end of an array. -/
theorem Arr.free_range {n limit : Nat} (a : Arr n (Option Name)) (past : n < limit) :
    a.free limit = .error .range := by
  obtain ⟨more, rfl⟩ : ∃ more, limit = n + 1 + more := ⟨limit - (n + 1), by omega⟩
  obtain ⟨a', hfold, _⟩ := a.free_ok (Nat.le_refl n)
  unfold Arr.free at hfold ⊢
  have outside : (List.range (n + 1)).foldlM (fun (a : Arr n (Option Name)) j => a.set j none) a =
      .error .range := by
    rw [List.range_succ, List.foldlM_append, hfold, ok_bind, List.foldlM_cons]
    unfold Arr.set
    rw [if_neg (Nat.lt_irrefl n)]
    rfl
  rw [List.range_add, List.foldlM_append, outside]
  rfl

theorem freeNs_range {nss level : Nat} (past : 16 < nss) (z : Z) (room : level < 5) :
    z.freeNs nss level = .error .range := by
  unfold Z.freeNs
  rw [z.ns.get_ok room, ok_bind, (z.ns.cell level).free_range past]
  rfl

/-- The loops of `cleanup` run past the arrays as soon as a limit does. -/
theorem cleanup_range {conf : Conf} (past : ¬ conf.Within) (z : Z) :
    cleanup conf z = .error .range := by
  have level : 0 < conf.levels := effective_pos (by omega)
  unfold cleanup
  by_cases aliases : 16 < conf.aliases
  · rw [z.aliases.free_range aliases]
    rfl
  · obtain ⟨freed, haliases, _⟩ := z.aliases.free_ok (Nat.le_of_not_lt aliases)
    rw [haliases, ok_bind]
    by_cases nss : 16 < conf.nss
    · -- the row of level 0 is too short
      obtain ⟨more, hmore⟩ : ∃ more, conf.levels = more + 1 := ⟨conf.levels - 1, by omega⟩
      rw [hmore, List.range_succ_eq_map, List.foldlM_cons, z.name.set_ok (by omega), ok_bind,
        freeNs_range nss _ (by omega)]
      rfl
    · have levels : 5 < conf.levels := by
        by_contra h
        exact past ⟨by omega, by omega, by omega⟩
      obtain ⟨more, hmore⟩ : ∃ more, conf.levels = 5 + 1 + more := ⟨conf.levels - 6, by omega⟩
      obtain ⟨z', hfold, _⟩ := cleanLevels_ok (Nat.le_of_not_lt nss) 5 (Nat.le_refl 5)
        { z with aliases := freed }
      rw [hmore, List.range_add, List.foldlM_append, List.range_succ, List.foldlM_append, hfold,
        ok_bind, List.foldlM_cons]
      rfl

theorem queryStartZ_range {conf : Conf} (past : ¬ conf.Within) (dn : Name) (type cls : Bytes)
    (z₀ : Z) : queryStartZ conf dn type cls z₀ = .error .range := by
  unfold queryStartZ
  rw [cleanup_range past]
  rfl

/-- **What holds in front of every call.** -/
theorem Called.ready {conf : Conf} {n : Nat} {z : Z} {entry : Entrance} (h : Called conf n z entry) :
    conf.Within ∧ entry.Ready conf z ∧ n + entry.rank conf z ≤ 64 * conf.loops := by
  induction h with
  | @start z₀ z dn type cls _ started =>
    have within : conf.Within := by
      by_contra past
      rw [queryStartZ_range past] at started
      cases started
    obtain ⟨z', hstart, fresh⟩ := queryStartZ_ok within dn type cls z₀
    cases Except.ok.inj (started.symm.trans hstart)
    refine ⟨within, ⟨fresh.sound, fresh.named⟩, ?_⟩
    show 0 + (64 * (conf.loops - z.loop - 1) + 63 + 1) ≤ _
    have := fresh.sound.loop
    omega
  | @again n z entry entry' σ env w w' rounds t before same query sent returns ih =>
    obtain ⟨within, ready, rank⟩ := ih
    subst same query
    obtain ⟨o, hdoit, _, result⟩ := doit_spec within ready rounds
    cases Except.ok.inj (sent.symm.trans hdoit)
    obtain ⟨waiting, nearer, _⟩ := result w' _ rfl
    have nearer := nearer t rfl
    cases entry' with
    | fresh => exact absurd rfl returns
    | packet buf curserver =>
      refine ⟨within, waiting, ?_⟩
      show n + 1 + w'.z.rank env.conf ≤ _
      omega
    | failed =>
      refine ⟨within, waiting, ?_⟩
      show n + 1 + w'.z.rank env.conf ≤ _
      omega

/-! ## Replaying a run -/

/-- The world behind a call that has sent a packet. -/
def sentTo : Except Fault (Option (World σ × Result)) → Option (World σ)
  | .ok (some (w, .sent _)) => some w
  | _ => none

theorem sentTo_eq_some {x : Except Fault (Option (World σ × Result))} {w : World σ}
    (h : sentTo x = some w) : ∃ t, x = .ok (some (w, .sent t)) := by
  unfold sentTo at h
  split at h
  · cases h
    exact ⟨_, rfl⟩
  · cases h

/-- A list of calls, as long as each of them sends a packet. -/
def replay (env : Env σ) (rounds : Nat) : List Entrance → World σ → Option (World σ)
  | [], w => some w
  | entry :: entries, w => (sentTo (doit env rounds w entry)).bind (replay env rounds entries)

theorem Called.replay {env : Env σ} {rounds n : Nat} {w w' : World σ} {entry : Entrance}
    {entries : List Entrance} (called : Called env.conf n w.z entry)
    (run : replay env rounds (entry :: entries) w = some w') (back : ∀ e ∈ entries, e ≠ .fresh)
    {entry' : Entrance} (returns : entry' ≠ .fresh) :
    Called env.conf (n + 1 + entries.length) w'.z entry' := by
  induction entries generalizing n w entry with
  | nil =>
    obtain ⟨w₁, one, rest⟩ := Option.bind_eq_some_iff.mp run
    obtain ⟨t, sent⟩ := sentTo_eq_some one
    cases rest
    exact .again called rfl rfl sent returns
  | cons next entries ih =>
    obtain ⟨w₁, one, rest⟩ := Option.bind_eq_some_iff.mp run
    obtain ⟨t, sent⟩ := sentTo_eq_some one
    have onward := ih (.again called rfl rfl sent (back next List.mem_cons_self)) rest
      fun e mem => back e (List.mem_cons_of_mem _ mem)
    have count : n + 1 + (next :: entries).length = n + 1 + 1 + entries.length := by
      rw [List.length_cons]
      omega
    exact count ▸ onward

/-- A query of static memory. -/
def Z.blank : Z where
  loop := 0
  level := 0
  name := ⟨fun _ => none⟩
  control := ⟨fun _ => none⟩
  ns := ⟨fun _ => ⟨fun _ => none⟩⟩
  servers := ⟨fun _ => .zero⟩
  aliases := ⟨fun _ => none⟩
  aliasttl := ⟨fun _ => 0⟩
  ipv6 := ⟨fun _ => false⟩
  type := []
  cls := []

/-! ## Indices -/

/-- No run of the machine has an index outside an array. -/
structure Indexed (conf : Conf) : Prop where
  start : ∀ dn type cls z₀, queryStartZ conf dn type cls z₀ ≠ .error .range
  call : ∀ {n z entry}, Called conf n z entry → ∀ {σ : Type} (env : Env σ) (w : World σ) rounds,
    env.conf = conf → w.z = z → doit env rounds w entry ≠ .error .range

/-- **The arrays are kept exactly by the limits that are within them**, in every run: `cleanup`
alone, which starts a query, runs past an array when a limit does. -/
theorem indexed_iff (conf : Conf) : Indexed conf ↔ conf.Within := by
  constructor
  · intro indexed
    by_contra past
    exact indexed.start [] [] [] .blank (queryStartZ_range past ..)
  · intro within
    constructor
    · intro dn type cls z₀ fault
      obtain ⟨z, started, _⟩ := queryStartZ_ok within dn type cls z₀
      rw [started] at fault
      cases fault
    · intro n z entry called σ env w rounds same query fault
      subst same query
      obtain ⟨o, hdoit, _⟩ := doit_spec within called.ready.2.1 rounds
      rw [hdoit] at fault
      cases fault

/-- One root server, and every limit as it is by itself. -/
def oneRoot : Conf where
  maxloop := 0
  maxlevel := 0
  maxalias := 0
  maxns := 0
  forwardonly := false
  hidettl := false
  roots := [([], ServerBlock.zero.fill ( v4mappedprefix ++ [127, 0, 0, 2]) rfl)]
  ignoreip := []

theorem not_indexed_sixLevels : ¬ Indexed { oneRoot with maxlevel := 6 } := by
  intro indexed
  exact indexed.start [[97]] dnsTA dnsCIn .blank (by rfl)

/-! ## The end of a query -/

/-- **Every query ends**, whatever comes back from the network and whatever the cache holds: each
call returns, the loop counter stays within its limit at every label, and there are less than
`64 * maxloop` calls that send a packet. -/
theorem queries_end {conf : Conf} (within : conf.Within) :
    (∀ dn type cls z₀, ∃ z, queryStartZ conf dn type cls z₀ = .ok z) ∧
      ∀ {n z entry}, Called conf n z entry →
        n < 64 * conf.loops ∧ ∀ {σ : Type} (env : Env σ) (w : World σ), env.conf = conf → w.z = z →
          (∃ rounds w' r, doit env rounds w entry = .ok (some (w', r))) ∧
            ∃ first, entered env w entry = .ok first ∧
              ∀ x, Passes env first x → x.1.z.loop ≤ conf.loops := by
  refine ⟨fun dn type cls z₀ => ?_, fun {n z entry} called => ?_⟩
  · obtain ⟨z, started, _⟩ := queryStartZ_ok within dn type cls z₀
    exact ⟨z, started⟩
  · obtain ⟨_, ready, rank⟩ := called.ready
    have left : 0 < entry.rank conf z := by cases entry <;> exact Nat.succ_pos _
    refine ⟨by omega, fun {σ} env w same query => ?_⟩
    subst same query
    constructor
    · obtain ⟨o, hdoit, ends, _⟩ := doit_spec within ready (entry.rank env.conf w.z)
      obtain ⟨⟨w', r⟩, rfl⟩ := Option.isSome_iff_exists.mp (ends (Nat.le_refl _))
      exact ⟨_, w', r, hdoit⟩
    · obtain ⟨_, _, w₁, next, hentered, fine, _, _, loop⟩ := entered_leads within ready
      exact ⟨_, hentered, fun x passes => (passes_fine within passes fine loop).2⟩

/-- Nothing is cached, and every packet can be sent. -/
def noCache : Env Unit where
  conf := oneRoot
  store := ⟨fun _ _ => none, fun _ _ => ()⟩
  draw _ := 0
  transmits := true

theorem oneRoot_within : oneRoot.Within := ⟨by decide, by decide, by decide⟩

theorem queries_end_oneRoot :
    ∃ z, queryStartZ oneRoot [[97]] dnsTNs dnsCIn .blank = .ok z ∧ 0 < 6400 ∧
      ∃ rounds w' r, doit noCache rounds ⟨z, (), [], ⟨[], [], 0, 0⟩⟩ .fresh = .ok (some (w', r)) := by
  obtain ⟨starts, calls⟩ := queries_end oneRoot_within
  obtain ⟨z, started⟩ := starts [[97]] dnsTNs dnsCIn .blank
  obtain ⟨bound, ends⟩ := calls (.start (by decide) started)
  exact ⟨z, started, bound, (ends noCache ⟨z, (), [], ⟨[], [], 0, 0⟩⟩ rfl rfl).1⟩

/-- The answer of the root server for the name servers of `a`: one of them, named by its address. -/
def referralOfA : Bytes :=
  [0, 0, 128, 0, 0, 1, 0, 0, 0, 1, 0, 0] ++ [1, 97, 0, 0, 2, 0, 1] ++
    [1, 97, 0, 0, 2, 0, 1, 0, 0, 0, 60, 0, 10] ++ [2, 49, 48, 1, 48, 1, 48, 1, 49, 0]

/-- The answer of that server to the same question: there are none. -/
def nodataOfA : Bytes :=
  [0, 0, 128, 0, 0, 1, 0, 0, 0, 1, 0, 0] ++ [1, 97, 0, 0, 2, 0, 1] ++
    [1, 97, 0, 0, 6, 0, 1, 0, 0, 0, 60, 0, 22] ++ [0, 0] ++ List.replicate 20 0

/-- A query that has just been started, with nothing done before. -/
def freshQuery (d : Name) (type : Bytes) : World Unit :=
  ⟨(queryStartZ oneRoot d type dnsCIn .blank).toOption.getD .blank, (), [], ⟨[], [], 0, 0⟩⟩

theorem freshQuery_started (d : Name) (type : Bytes) :
    queryStartZ oneRoot d type dnsCIn .blank = .ok (freshQuery d type).z := by
  obtain ⟨z, started, _⟩ := queryStartZ_ok oneRoot_within d type dnsCIn .blank
  unfold freshQuery
  rw [started]
  rfl

/-- A query for the name servers of `a`, behind the packet to the root server. -/
def askedForA : World Unit :=
  (replay noCache 20 [.fresh] (freshQuery [[97]] dnsTNs)).getD (freshQuery [[97]] dnsTNs)

theorem called_referralOfA : Called oneRoot 1 askedForA.z (.packet referralOfA 0) := by
  have runs : (replay noCache 20 [.fresh] (freshQuery [[97]] dnsTNs)).isSome := by
    decide +kernel
  obtain ⟨w, run⟩ := Option.isSome_iff_exists.mp runs
  have reached : askedForA = w := by
    unfold askedForA
    rw [run]
    rfl
  rw [reached]
  have first : Called noCache.conf 0 (freshQuery [[97]] dnsTNs).z .fresh :=
    .start (by decide) (freshQuery_started [[97]] dnsTNs)
  exact first.replay run (fun e mem => absurd mem List.not_mem_nil) nofun

/-- The same query behind the root server's referral, too. -/
def referredOfA : World Unit :=
  (replay noCache 20 [.fresh, .packet referralOfA 0] (freshQuery [[97]] dnsTNs)).getD
    (freshQuery [[97]] dnsTNs)

theorem called_nodataOfA : Called oneRoot 2 referredOfA.z (.packet nodataOfA 0) := by
  have runs : (replay noCache 20 [.fresh, .packet referralOfA 0]
      (freshQuery [[97]] dnsTNs)).isSome := by
    decide +kernel
  obtain ⟨w, run⟩ := Option.isSome_iff_exists.mp runs
  have reached : referredOfA = w := by
    unfold referredOfA
    rw [run]
    rfl
  rw [reached]
  have first : Called noCache.conf 0 (freshQuery [[97]] dnsTNs).z .fresh :=
    .start (by decide) (freshQuery_started [[97]] dnsTNs)
  refine first.replay run (fun e mem => ?_) nofun
  rw [List.mem_singleton] at mem
  rw [mem]
  nofun

/-- The calls of `cache_set` behind a call of `doit` that has come to an end. -/
theorem calls_of_doit {x : Except Fault (Option (World σ × Result))} {calls : List CacheSet}
    (h : (x.toOption.bind (Option.map fun behind => behind.1.calls)) = some calls) :
    ∃ w r, x = .ok (some (w, r)) ∧ w.calls = calls := by
  obtain ⟨o, ran, mapped⟩ := Option.bind_eq_some_iff.mp h
  obtain ⟨⟨w, r⟩, rfl, hcalls⟩ := Option.map_eq_some_iff.mp mapped
  cases x with
  | error fault => cases ran
  | ok o =>
    cases ran
    exact ⟨w, r, rfl, hcalls⟩

/-! ## Bailiwick -/

theorem IsSet.type_two {buf : Bytes} {ps : List Nat} {posauthority : Nat} {g : RrSet}
    (isSet : IsSet buf ps g) (sections : Sections buf ps posauthority) : g.type.length = 2 := by
  obtain ⟨_, _, _, _, _, parsed, _⟩ := sections
  obtain ⟨p, hp, _⟩ := isSet.first
  rw [isSet.whole] at hp
  obtain ⟨mem, belongs⟩ := List.mem_filter.mp hp
  obtain ⟨x, hx⟩ := Option.isSome_iff_exists.mp ((positions_spec parsed).1 p mem).2
  have type := (of_decide_eq_true belongs).2.1
  rw [looked_of hx] at type
  rw [← type]
  show (x.fixed.take 2).length = 2
  rw [List.length_take, (look_fixed hx).1]
  rfl

/-- The key and the place of a record set that is filed: within the domain in control, and in the
group of the root that this is in. -/
theorem Filed.place {conf : Conf} {buf : Bytes} {control : Name} {posauthority : Nat} {ps : List Nat}
    {call : CacheSet} (isFiled : Filed conf buf control posauthority ps call) :
    ∃ g tail, IsSet buf ps g ∧ saveSet conf buf posauthority g = .ok (some call) ∧
      call.key = cacheKey g.type g.owner ∧ tail <:+ g.owner ∧ dnsDomainEqual tail control = true ∧
      rootsSame conf.roots g.owner control = true := by
  obtain ⟨g, isSet, isHeard, saved⟩ := isFiled
  obtain ⟨below, _, group⟩ := heard_iff.mp isHeard
  obtain ⟨tail, suffix, equal⟩ := dnsDomainSuffix_tail below
  exact ⟨g, tail, isSet, saved, saveSet_key saved, suffix, equal, group⟩

/-- **What a packet can write to the cache**: the domain in control is a tail of the name asked for,
and each call is an empty entry for that name, under ANY or the type asked for, or one for a record
set of the packet whose owner is under the control of the servers asked. -/
theorem packet_bailiwick {conf : Conf} {n : Nat} {z : Z} {buf : Bytes} {curserver : Fin 16}
    (called : Called conf n z (.packet buf curserver)) :
    ∃ d control, z.name.cell z.level = some d ∧ z.control.cell z.level = some control ∧
      control <:+ d ∧
      ∀ {σ : Type} (env : Env σ) (w w' : World σ) rounds r, env.conf = conf → w.z = z →
        doit env rounds w (.packet buf curserver) = .ok (some (w', r)) →
        ∃ new, w'.calls = w.calls ++ new ∧ ∀ call ∈ new,
          (call.data = [] ∧ ∃ type, (type = dnsTAny ∨ z.dtype = .ok type) ∧
            call.key = cacheKey type d) ∨
          ∃ ps posauthority g tail, Sections buf ps posauthority ∧ IsSet buf ps g ∧
            g.type.length = 2 ∧ call.key = cacheKey g.type g.owner ∧ tail <:+ g.owner ∧
            dnsDomainEqual tail control = true ∧ rootsSame conf.roots g.owner control = true := by
  obtain ⟨within, waiting, _⟩ := called.ready
  obtain ⟨d, control, hd, hcontrol, tail⟩ := waiting.2 z.level (Nat.lt_succ_self _)
  refine ⟨d, control, hd, hcontrol, tail, ?_⟩
  intro σ env w w' rounds r same query hrun
  subst same query
  obtain ⟨o, hdoit, _, result⟩ := doit_spec within
    (show (Entrance.packet buf curserver).Ready env.conf w.z from waiting) rounds
  cases Except.ok.inj (hrun.symm.trans hdoit)
  obtain ⟨_, _, new, hcalls, d', control', dtype, hd', hcontrol', _, hdtype, learned⟩ := result w' r rfl
  cases Option.some.inj (hd.symm.trans hd')
  cases Option.some.inj (hcontrol.symm.trans hcontrol')
  refine ⟨new, hcalls, fun call mem => ?_⟩
  rcases learned call mem with ⟨ps, posauthority, sections, isFiled⟩ | ⟨data, x, _, key | key⟩
  · obtain ⟨g, tail, isSet, _, key, suffix, equal, group⟩ := isFiled.place
    exact .inr ⟨ps, posauthority, g, tail, sections, isSet, isSet.type_two sections, key, suffix,
      equal, group⟩
  · exact .inl ⟨data, dnsTAny, .inl rfl, key.1⟩
  · exact .inl ⟨data, dtype, .inr hdtype, key.1⟩

/-- The servers of `a`, out of the root's referral. -/
theorem packet_bailiwick_referralOfA :
    ∃ w' r call, doit noCache 20 askedForA (.packet referralOfA 0) = .ok (some (w', r)) ∧
      call ∈ w'.calls ∧ call.key = cacheKey dnsTNs [[97]] ∧ call.data ≠ [] ∧
      ∃ ps posauthority g tail, Sections referralOfA ps posauthority ∧ IsSet referralOfA ps g ∧
        g.type.length = 2 ∧ call.key = cacheKey g.type g.owner ∧ tail <:+ g.owner ∧
        dnsDomainEqual tail [] = true ∧ rootsSame oneRoot.roots g.owner [] = true := by
  have calls : ((doit noCache 20 askedForA (.packet referralOfA 0)).toOption.bind
      (Option.map fun x => x.1.calls)) =
        some (askedForA.calls ++ [⟨cacheKey dnsTNs [[97]], wire [[49, 48], [48], [48], [49]], 60⟩]) := by
    decide +kernel
  obtain ⟨w', r, run, hcalls⟩ := calls_of_doit calls
  obtain ⟨d, control, _, hcontrol, _, packet⟩ := packet_bailiwick called_referralOfA
  have root : askedForA.z.control.cell askedForA.z.level = some [] := by decide +kernel
  cases Option.some.inj (root.symm.trans hcontrol)
  obtain ⟨new, hnew, each⟩ := packet noCache askedForA w' 20 r rfl rfl run
  have hsame := List.append_cancel_left (hcalls.symm.trans hnew)
  rw [← hsame] at each
  refine ⟨w', r, _, run, by rw [hcalls]; exact List.mem_append_right _ (List.mem_singleton_self _),
    rfl, by decide, ?_⟩
  exact (each _ (List.mem_singleton_self _)).resolve_left fun empty => absurd empty.1 (by decide)

/-! ## Ghost domains -/

theorem cacheKey_inj {type type' : Bytes} {d d' : Name} (two : type.length = type'.length)
    (h : cacheKey type d = cacheKey type' d') : type = type' ∧ dnsDomainEqual d d' = true := by
  obtain ⟨types, names⟩ := List.append_inj h two
  refine ⟨types, ?_⟩
  have lengths := congrArg List.length names
  rw [lower_length, lower_length] at lengths
  rw [dnsDomainEqual, Bool.and_eq_true]
  exact ⟨decide_eq_true lengths, decide_eq_true names⟩

/-- **A delegation is not renewed by the servers it leads to.** Of the calls of `cache_set` while a
packet from a server in control of `c` is processed, one for the servers of `c` themselves is a
negative entry, for a client that has asked for just these, out of a reply without an answer and with
an SOA record. -/
theorem packet_spares_delegation {conf : Conf} {n : Nat} {z : Z} {buf : Bytes} {curserver : Fin 16}
    (called : Called conf n z (.packet buf curserver)) {c : Name}
    (control : z.control.cell z.level = some c) (full : conf.forwardonly = false)
    (notRoot : roots conf.roots c = none) {σ : Type} {env : Env σ} {w w' : World σ} {rounds : Nat}
    {r : Result} (same : env.conf = conf) (query : w.z = z)
    (run : doit env rounds w (.packet buf curserver) = .ok (some (w', r))) :
    ∃ new, w'.calls = w.calls ++ new ∧ ∀ call ∈ new, call.key = cacheKey dnsTNs c →
      call.data = [] ∧ z.level = 0 ∧ ∃ d, z.name.cell 0 = some d ∧
        cacheKey z.type d = cacheKey dnsTNs c ∧
        ∃ x, readPacket buf d z.type = some x ∧ x.scan.out = false ∧ x.scan.soa.isSome := by
  obtain ⟨within, waiting, _⟩ := called.ready
  subst same query
  obtain ⟨o, hdoit, _, result⟩ := doit_spec within
    (show (Entrance.packet buf curserver).Ready env.conf w.z from waiting) rounds
  cases Except.ok.inj (run.symm.trans hdoit)
  obtain ⟨_, _, new, hcalls, d, c', dtype, hd, hc, _, hdtype, learned⟩ := result w' r rfl
  cases Option.some.inj (control.symm.trans hc)
  refine ⟨new, hcalls, fun call mem isNs => ?_⟩
  rcases learned call mem with ⟨ps, posauthority, sections, g, isSet, isHeard, saved⟩ |
    ⟨data, x, reads, ⟨key, _⟩ | ⟨key, silent, soa⟩⟩
  · -- the servers are not heard about their own delegation
    obtain ⟨ns, equal⟩ := cacheKey_inj (isSet.type_two sections)
      ((saveSet_key saved).symm.trans isNs)
    obtain ⟨_, own, _⟩ := heard_iff.mp isHeard
    exact absurd ⟨full, ns, equal, notRoot⟩ own
  · obtain ⟨any, _⟩ := cacheKey_inj (by rfl) (key.symm.trans isNs)
    exact absurd any (by decide)
  · refine ⟨data, ?_⟩
    unfold Z.dtype at hdtype
    split at hdtype
    · rename_i bottom
      cases hdtype
      exact ⟨bottom, d, bottom ▸ hd, key.symm.trans isNs, x, reads, silent, soa⟩
    · -- above level 0 addresses are asked for
      exfalso
      obtain ⟨ipv6, _, hdtype⟩ := Loop.bind_eq_ok.mp hdtype
      cases Except.ok.inj hdtype
      cases ipv6
      · obtain ⟨address, _⟩ := cacheKey_inj (by rfl) (key.symm.trans isNs)
        exact absurd address (by decide)
      · obtain ⟨address, _⟩ := cacheKey_inj (by rfl) (key.symm.trans isNs)
        exact absurd address (by decide)

/-- The packet that says there are none, and its one call of `cache_set`. -/
theorem answered_nodataOfA :
    ∃ w' r, doit noCache 20 referredOfA (.packet nodataOfA 0) = .ok (some (w', r)) ∧
      w'.calls = referredOfA.calls ++ [⟨cacheKey dnsTNs [[97]], [], 60⟩] :=
  calls_of_doit (by decide +kernel)

theorem packet_spares_nodataOfA :
    ∃ (w' : World Unit) (new : List CacheSet), w'.calls = referredOfA.calls ++ new ∧
      ∀ call ∈ new, call.key = cacheKey dnsTNs [[97]] → call.data = [] := by
  obtain ⟨w', r, run, _⟩ := answered_nodataOfA
  obtain ⟨new, hcalls, spared⟩ := packet_spares_delegation called_nodataOfA (c := [[97]])
    (by decide +kernel) rfl (by decide +kernel) (show noCache.conf = oneRoot from rfl) rfl run
  exact ⟨w', new, hcalls, fun call mem isNs => (spared call mem isNs).1⟩

/-- Behind a referral to `a`, its own server says that `a` has no servers: the entry that the
referral has filled is written once more. -/
theorem nodataOfA_empties :
    Called oneRoot 2 referredOfA.z (.packet nodataOfA 0) ∧
      referredOfA.z.control.cell referredOfA.z.level = some [[97]] ∧
      oneRoot.forwardonly = false ∧ roots oneRoot.roots [[97]] = none ∧
      (∃ call ∈ referredOfA.calls, call.key = cacheKey dnsTNs [[97]] ∧ call.data ≠ []) ∧
      ∃ w' r new, doit noCache 20 referredOfA (.packet nodataOfA 0) = .ok (some (w', r)) ∧
        w'.calls = referredOfA.calls ++ new ∧ ∃ call ∈ new, call.key = cacheKey dnsTNs [[97]] := by
  obtain ⟨w', r, run, hcalls⟩ := answered_nodataOfA
  refine ⟨called_nodataOfA, by decide +kernel, rfl, by decide +kernel, by decide +kernel, w', r, _,
    run, hcalls, _, List.mem_singleton_self _, rfl⟩

end TinyDnssec.Dnscache
