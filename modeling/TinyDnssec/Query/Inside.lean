import TinyDnssec.Query.Machine

/-!
# dnscache: the machine stays inside its arrays

What holds of a query at every label of `doit`: the levels below the one at work have a name and a
domain in control of it, which is a tail of the name; the aliases fill their array from the front;
and the loop counter has not reached its limit. One lemma for each label says so; `step_leads`, which
puts them together, stands with the runs. They also say that each label comes nearer to a return:
`Label.rank` counts the rounds of NEWNAME and HAVEPACKET that are left, then the levels, then the
labels that may follow at one level. `havepacket_learns` says besides what a packet has written to
the cache. What is in the cache already, and whether an answer is a right one, is not said here.
-/

namespace TinyDnssec.Dnscache

open Octets

/-! ## Reading and writing inside an array -/

section Arrays

variable {n : Nat} {α β : Type}

theorem Arr.get_ok (a : Arr n α) {i : Nat} (h : i < n) : a.get i = .ok (a.cell i) := if_pos h

theorem Arr.set_ok (a : Arr n α) {i : Nat} (h : i < n) (x : α) :
    a.set i x = .ok ⟨Function.update a.cell i x⟩ := if_pos h

@[simp] theorem ok_bind {ε : Type} (x : α) (f : α → Except ε β) : (Except.ok x >>= f) = f x := rfl

/-- Freeing the first entries of an array that is long enough. -/
theorem Arr.free_ok (a : Arr n (Option Name)) {limit : Nat} (h : limit ≤ n) :
    ∃ a', a.free limit = .ok a' ∧ ∀ i, a'.cell i = if i < limit then none else a.cell i := by
  unfold Arr.free
  induction limit with
  | zero => exact ⟨a, rfl, fun i => (if_neg (Nat.not_lt_zero i)).symm⟩
  | succ limit ih =>
    obtain ⟨a', hfold, hcell⟩ := ih (by omega)
    rw [List.range_succ, List.foldlM_append, hfold, ok_bind, List.foldlM_cons,
      a'.set_ok (by omega), ok_bind]
    refine ⟨_, rfl, fun i => ?_⟩
    simp only [Function.update_apply, hcell]
    by_cases here : i = limit
    · rw [if_pos here, if_pos (by omega)]
    · rw [if_neg here]
      by_cases below : i < limit
      · rw [if_pos below, if_pos (by omega)]
      · rw [if_neg below, if_neg (by omega)]

end Arrays

variable {σ : Type}

/-- The limits are within the sizes of the arrays. -/
structure Conf.Within (conf : Conf) : Prop where
  levels : conf.levels ≤ 5
  aliases : conf.aliases ≤ 16
  nss : conf.nss ≤ 16

theorem effective_pos {limit : Int} {default : Nat} (h : 0 < default) :
    0 < effective limit default := by
  unfold effective
  split <;> omega

theorem Z.freeNs_ok {nss : Nat} (fits : nss ≤ 16) (z : Z) {level : Nat} (h : level < 5) :
    ∃ ns, z.freeNs nss level = .ok { z with ns := ns } := by
  obtain ⟨row, hrow, _⟩ := (z.ns.cell level).free_ok fits
  unfold Z.freeNs
  rw [z.ns.get_ok h, ok_bind, hrow, ok_bind, z.ns.set_ok h, ok_bind]
  exact ⟨_, rfl⟩

/-- The loop of `cleanup` over the levels. -/
theorem cleanLevels_ok {nss : Nat} (fits : nss ≤ 16) (n : Nat) (h : n ≤ 5) (z : Z) :
    ∃ z', (List.range n).foldlM (fun (z : Z) j => do
        let name ← z.name.set j none
        { z with name := name }.freeNs nss j) z = .ok z' ∧
      z'.loop = z.loop ∧ z'.aliases = z.aliases := by
  induction n with
  | zero => exact ⟨z, rfl, rfl, rfl⟩
  | succ n ih =>
    obtain ⟨z', hfold, hloop, hsame⟩ := ih (by omega)
    obtain ⟨ns, hns⟩ := Z.freeNs_ok fits
      { z' with name := ⟨Function.update z'.name.cell n none⟩ } (show n < 5 by omega)
    rw [List.range_succ, List.foldlM_append, hfold, ok_bind, List.foldlM_cons,
      z'.name.set_ok (by omega), ok_bind, hns, ok_bind]
    exact ⟨_, rfl, hloop, hsame⟩

theorem cleanup_ok {conf : Conf} (within : conf.Within) (z : Z) :
    ∃ z', cleanup conf z = .ok z' ∧ z'.loop = z.loop ∧
      ∀ i, z'.aliases.cell i = if i < conf.aliases then none else z.aliases.cell i := by
  obtain ⟨aliases, haliases, hcell⟩ := z.aliases.free_ok within.aliases
  obtain ⟨z', hfold, hloop, hsame⟩ :=
    cleanLevels_ok within.nss conf.levels within.levels { z with aliases := aliases }
  unfold cleanup
  rw [haliases, ok_bind]
  exact ⟨z', hfold, hloop, fun i => by rw [hsame]; exact hcell i⟩

/-! ## The invariant -/

/-- Below level `n`, every level has a name, and a tail of it in control. -/
def Z.Rooted (z : Z) (n : Nat) : Prop :=
  ∀ i < n, ∃ d c, z.name.cell i = some d ∧ z.control.cell i = some c ∧ c <:+ d

/-- The aliases stand in front, with nothing between them. -/
def Z.Aliased (conf : Conf) (z : Z) : Prop :=
  ∀ i, i + 1 < conf.aliases → (z.aliases.cell (i + 1)).isSome → (z.aliases.cell i).isSome

/-- What holds at every label but DIE. -/
structure Z.Sound (conf : Conf) (z : Z) : Prop where
  loop : z.loop < conf.loops
  level : z.level < conf.levels
  rooted : z.Rooted z.level
  aliased : z.Aliased conf
  asked : ∃ d, z.name.cell 0 = some d

/-- The level at work has a name. -/
def Z.Named (z : Z) : Prop := ∃ d, z.name.cell z.level = some d

/-- What holds in front of a label. -/
def Label.Ready (conf : Conf) (z : Z) : Label → Prop
  | .newname => z.Sound conf ∧ z.Named
  | .havens => z.Sound conf ∧ z.Rooted (z.level + 1)
  | .lowerlevel => z.Sound conf ∧ z.level ≠ 0
  | .servfail => z.Sound conf
  | .nxdomain => z.Sound conf
  | .cname _ _ => z.Sound conf
  | .die => True

/-- What holds while a packet is waited for. -/
def Z.Waiting (conf : Conf) (z : Z) : Prop := z.Sound conf ∧ z.Rooted (z.level + 1)

def Result.Fine (conf : Conf) (z : Z) : Result → Prop
  | .sent _ => z.Waiting conf
  | _ => True

def Next.Fine (conf : Conf) (z : Z) : Next → Prop
  | .goto label => label.Ready conf z
  | .done r => r.Fine conf z

/-- How far a label is from a return: the rounds left of NEWNAME and HAVEPACKET, the level, and the
labels that can follow at that level. -/
def Label.rank (conf : Conf) (z : Z) : Label → Nat
  | .newname => 64 * (conf.loops - z.loop - 1) + 63
  | .cname _ _ => 64 * (conf.loops - z.loop) + 8 * z.level + 5
  | .havens => 64 * (conf.loops - z.loop) + 8 * z.level + 4
  | .servfail => 64 * (conf.loops - z.loop) + 8 * z.level + 2
  | .nxdomain => 64 * (conf.loops - z.loop) + 8 * z.level + 2
  | .lowerlevel => 64 * (conf.loops - z.loop) + 8 * z.level + 1
  | .die => 0

def Z.rank (conf : Conf) (z : Z) : Nat := 64 * (conf.loops - z.loop) + 8 * z.level + 3

/-- A step from a label of rank `rank` is nearer to a return, or to the next packet. -/
def Next.below (conf : Conf) (rank : Nat) (z : Z) : Next → Prop
  | .goto label => label.rank conf z < rank
  | .done (.sent _) => z.rank conf < rank
  | .done _ => True

/-- What a label comes to: no fault, everything in order, no call of `cache_set`, and less to do. -/
def Leads (conf : Conf) (rank : Nat) (calls : List CacheSet) (x : Except Fault (Step σ)) : Prop :=
  ∃ w next, x = .ok (w, next) ∧ next.Fine conf w.z ∧ next.below conf rank w.z ∧ w.calls = calls ∧
    w.z.loop ≤ conf.loops

/-- A block of NEWNAME that may pass on to the next one. -/
def MayLead (conf : Conf) (rank : Nat) (calls : List CacheSet)
    (x : Except Fault (Option (Step σ))) : Prop :=
  x = .ok none ∨ ∃ y, x = y.map some ∧ Leads conf rank calls y

theorem Leads.goto {conf : Conf} {rank : Nat} {calls : List CacheSet} {w : World σ} {label : Label}
    (ready : label.Ready conf w.z) (nearer : label.rank conf w.z < rank) (same : w.calls = calls)
    (loop : w.z.loop ≤ conf.loops) : Leads conf rank calls (.ok (w, .goto label)) :=
  ⟨w, .goto label, rfl, ready, nearer, same, loop⟩

theorem Leads.mayLead {conf : Conf} {rank : Nat} {calls : List CacheSet}
    {y : Except Fault (Step σ)} (leads : Leads conf rank calls y) :
    MayLead conf rank calls (y.map some) :=
  .inr ⟨y, rfl, leads⟩

theorem MayLead.goto {conf : Conf} {rank : Nat} {calls : List CacheSet} {w : World σ} {label : Label}
    (ready : label.Ready conf w.z) (nearer : label.rank conf w.z < rank) (same : w.calls = calls)
    (loop : w.z.loop ≤ conf.loops) : MayLead conf rank calls (.ok (some (w, .goto label))) :=
  (Leads.goto ready nearer same loop).mayLead

theorem firstSome_mayLead {conf : Conf} {rank : Nat} {calls : List CacheSet}
    {xs : List (Except Fault (Option (Step σ)))} (all : ∀ x ∈ xs, MayLead conf rank calls x) :
    MayLead conf rank calls (firstSome xs) := by
  induction xs with
  | nil => exact .inl rfl
  | cons x xs ih =>
    rcases all x List.mem_cons_self with rfl | ⟨y, rfl, leads⟩
    · exact ih fun x' mem => all x' (List.mem_cons_of_mem _ mem)
    · refine .inr ⟨y, ?_, leads⟩
      obtain ⟨w, next, rfl, _⟩ := leads
      rfl

/-! ## Changes that leave the invariant alone -/

/-- The servers and the address family of a level are of no concern. -/
theorem Z.Sound.touch {conf : Conf} {z : Z} (sound : z.Sound conf)
    (ns : Arr 5 (Arr 16 (Option Name))) (servers : Arr 5 ServerBlock) (ipv6 : Arr 5 Bool) :
    ({ z with ns := ns, servers := servers, ipv6 := ipv6 } : Z).Sound conf :=
  ⟨sound.loop, sound.level, sound.rooted, sound.aliased, sound.asked⟩

theorem Z.Rooted.setName {z : Z} {n : Nat} (rooted : z.Rooted n) (d : Option Name) :
    ({ z with name := ⟨Function.update z.name.cell n d⟩ } : Z).Rooted n := by
  intro i below
  obtain ⟨d', c, hd, hc, tail⟩ := rooted i below
  refine ⟨d', c, ?_, hc, tail⟩
  show Function.update z.name.cell n d i = _
  rw [Function.update_of_ne (by omega), hd]

/-- With a name and a tail of it in control, a level is as good as the ones below. -/
theorem Z.Rooted.setControl {z : Z} (rooted : z.Rooted z.level) {d c : Name}
    (hd : z.name.cell z.level = some d) (tail : c <:+ d) :
    ({ z with control := ⟨Function.update z.control.cell z.level (some c)⟩ } : Z).Rooted
      (z.level + 1) := by
  intro i below
  show ∃ d' c', z.name.cell i = some d' ∧ Function.update z.control.cell z.level (some c) i = _ ∧ _
  by_cases here : i = z.level
  · rw [here, Function.update_self]
    exact ⟨d, c, hd, rfl, tail⟩
  · obtain ⟨d', c', hd', hc', tail'⟩ := rooted i (by omega)
    rw [Function.update_of_ne here]
    exact ⟨d', c', hd', hc', tail'⟩

theorem Z.Rooted.mono {z : Z} {n m : Nat} (rooted : z.Rooted n) (h : m ≤ n) : z.Rooted m :=
  fun i below => rooted i (by omega)

section Steps

variable {env : Env σ} (within : env.conf.Within) {w : World σ}
include within

theorem Z.Sound.room {z : Z} (sound : z.Sound env.conf) : z.level < 5 := by
  have := sound.level
  have := within.levels
  omega

omit within in
theorem dtype_ok {z : Z} (room : z.level < 5) : ∃ dtype, z.dtype = .ok dtype := by
  unfold Z.dtype
  split
  · exact ⟨_, rfl⟩
  · rw [z.ipv6.get_ok room]
    exact ⟨_, rfl⟩

omit within in
theorem deposit_ok {z : Z} {level : Nat} (room : level < 5) (address : Bytes) :
    ∃ servers, z.deposit level address = .ok { z with servers := servers } := by
  unfold Z.deposit
  rw [z.servers.get_ok room, ok_bind]
  split
  · rw [z.servers.set_ok room]
    exact ⟨_, rfl⟩
  · exact ⟨z.servers, rfl⟩

omit within in
theorem deposits_ok {level : Nat} (room : level < 5) (addresses : List Bytes) (z : Z) :
    ∃ servers, z.deposits level addresses = .ok { z with servers := servers } := by
  unfold Z.deposits
  induction addresses generalizing z with
  | nil => exact ⟨z.servers, rfl⟩
  | cons address addresses ih =>
    obtain ⟨servers, hone⟩ := deposit_ok (z := z) room address
    obtain ⟨servers', hrest⟩ := ih { z with servers := servers }
    rw [List.foldlM_cons, hone, ok_bind, hrest]
    exact ⟨servers', rfl⟩

omit within in
theorem rqaFind_ok {z : Z} (n : Nat) (h : n ≤ 16) :
    ∃ found, rqaFind z n = .ok found ∧
      ∀ i, found = some i → i < n ∧ (z.aliases.cell i).isSome := by
  induction n with
  | zero => exact ⟨none, rfl, fun i h => nomatch h⟩
  | succ n ih =>
    rw [rqaFind, z.aliases.get_ok (by omega), ok_bind]
    split
    · rename_i isSome
      refine ⟨some n, rfl, fun i hi => ?_⟩
      obtain rfl := Option.some.inj hi
      exact ⟨by omega, isSome⟩
    · obtain ⟨found, hfound, inside⟩ := ih (by omega)
      exact ⟨found, hfound, fun i hi => ⟨(inside i hi).1.trans (Nat.lt_succ_self _), (inside i hi).2⟩⟩

theorem rqaChain_ok {z : Z} (aliased : z.Aliased env.conf) (asked : ∃ d, z.name.cell 0 = some d)
    (hidettl : Bool) (i : Nat) (limit : i < env.conf.aliases) (here : (z.aliases.cell i).isSome)
    (r : Response) : ∃ b, rqaChain hidettl z i r = .ok b := by
  have room : i < 16 := Nat.lt_of_lt_of_le limit within.aliases
  induction i generalizing r with
  | zero =>
    obtain ⟨c, hc⟩ := Option.isSome_iff_exists.mp here
    obtain ⟨d, hd⟩ := asked
    rw [rqaChain, z.aliases.get_ok room, ok_bind, hc, deref, ok_bind, z.name.get_ok (by omega),
      ok_bind, hd, deref, ok_bind, z.aliasttl.get_ok room, ok_bind]
    exact ⟨_, rfl⟩
  | succ i ih =>
    have before := aliased i limit here
    obtain ⟨c, hc⟩ := Option.isSome_iff_exists.mp here
    obtain ⟨d, hd⟩ := Option.isSome_iff_exists.mp before
    rw [rqaChain, z.aliases.get_ok room, ok_bind, hc, deref, ok_bind, z.aliases.get_ok (by omega),
      ok_bind, hd, deref, ok_bind, z.aliasttl.get_ok room, ok_bind]
    unfold andThen
    split
    · exact ⟨_, rfl⟩
    · exact ih (by omega) before _ (by omega)

theorem rqa_ok {z : Z} (sound : z.Sound env.conf) (r : Response) :
    ∃ b, rqa env.conf z r = .ok b := by
  obtain ⟨found, hfound, inside⟩ := rqaFind_ok (z := z) env.conf.aliases within.aliases
  unfold rqa
  rw [hfound, ok_bind]
  cases found with
  | none =>
    obtain ⟨d, hd⟩ := sound.asked
    simp only []
    rw [z.name.get_ok (by omega), ok_bind, hd, deref, ok_bind]
    exact ⟨_, rfl⟩
  | some i =>
    obtain ⟨limit, here⟩ := inside i rfl
    obtain ⟨c, hc⟩ := Option.isSome_iff_exists.mp here
    simp only []
    rw [z.aliases.get_ok (Nat.lt_of_lt_of_le limit within.aliases), ok_bind, hc, deref, ok_bind]
    unfold andThen
    split
    · exact ⟨_, rfl⟩
    · exact rqaChain_ok within sound.aliased sound.asked _ i limit here _

/-- An answer ends the query. -/
theorem answer_leads {rank : Nat} (sound : w.z.Sound env.conf) (nearer : 0 < rank)
    (more : Response → Build) : Leads env.conf rank w.calls (answer env w more) := by
  obtain ⟨b, hb⟩ := rqa_ok within sound w.response
  have loop := sound.loop
  unfold answer
  rw [hb, ok_bind]
  cases b >>= more with
  | error r => exact .goto trivial nearer rfl (Nat.le_of_lt loop)
  | ok r =>
    obtain ⟨z', hclean, hloop, _⟩ := cleanup_ok within w.z
    simp only []
    rw [hclean, ok_bind]
    exact ⟨_, _, rfl, trivial, trivial, rfl, by
      show z'.loop ≤ _
      omega⟩

theorem die_leads {rank : Nat} (loop : w.z.loop ≤ env.conf.loops) :
    Leads env.conf rank w.calls (die env w) := by
  obtain ⟨z', hclean, hloop, _⟩ := cleanup_ok within w.z
  unfold die
  rw [hclean, ok_bind]
  exact ⟨_, _, rfl, trivial, trivial, rfl, by
    show z'.loop ≤ _
    omega⟩

theorem giveUp_leads (sound : w.z.Sound env.conf) (tell : Response → Response) :
    Leads env.conf (64 * (env.conf.loops - w.z.loop) + 8 * w.z.level + 2) w.calls
      (giveUp env tell w) := by
  unfold giveUp
  split
  · rename_i above
    exact .goto ⟨sound, above⟩ (by show _ + 1 < _; omega) rfl (Nat.le_of_lt sound.loop)
  · exact answer_leads within sound (by omega) _

theorem lowerlevel_leads (sound : w.z.Sound env.conf) (above : w.z.level ≠ 0) :
    Leads env.conf (64 * (env.conf.loops - w.z.loop) + 8 * w.z.level + 1) w.calls
      (lowerlevel env w) := by
  have room := sound.room within
  unfold lowerlevel
  rw [w.z.name.set_ok room, ok_bind]
  obtain ⟨ns, hns⟩ := Z.freeNs_ok within.nss
    { w.z with name := ⟨Function.update w.z.name.cell w.z.level none⟩ } room
  rw [hns, ok_bind, if_neg above]
  have rooted := sound.rooted.setName none
  have level := sound.level
  refine .goto ⟨⟨sound.loop, ?_, ?_, sound.aliased, ?_⟩, ?_⟩ ?_ rfl (Nat.le_of_lt sound.loop)
  · show w.z.level - 1 < _
    omega
  · exact rooted.mono (Nat.sub_le ..)
  · obtain ⟨d, hd⟩ := sound.asked
    refine ⟨d, ?_⟩
    show Function.update w.z.name.cell w.z.level none 0 = _
    rw [Function.update_of_ne (by omega), hd]
  · exact rooted.mono (by show w.z.level - 1 + 1 ≤ _; omega)
  · show 64 * (env.conf.loops - w.z.loop) + 8 * (w.z.level - 1) + 4 < _
    omega

omit within in
theorem havensGo_ok (levels rounds j : Nat) (z : Z) (room : z.level < 5) (h : j + rounds ≤ 16)
    (fits : levels ≤ 5) :
    (∃ ns, havensGo levels rounds j z = .ok ({ z with ns := ns }, false)) ∨
      z.level + 1 < levels ∧ ∃ ns t, havensGo levels rounds j z =
        .ok ({ z with
          name := ⟨Function.update z.name.cell (z.level + 1) (some t)⟩
          ns := ns
          level := z.level + 1
          ipv6 := ⟨Function.update z.ipv6.cell (z.level + 1) false⟩ }, true) := by
  induction rounds generalizing j z with
  | zero => exact .inl ⟨z.ns, rfl⟩
  | succ rounds ih =>
    rw [havensGo, z.ns.get_ok room, ok_bind, Arr.get_ok _ (by omega), ok_bind]
    cases (z.ns.cell z.level).cell j with
    | none => exact ih (j + 1) z room (by omega)
    | some t =>
      simp only []
      rw [Arr.set_ok _ (by omega), ok_bind, z.ns.set_ok room, ok_bind]
      split
      · rename_i more
        rw [z.name.set_ok (by omega), ok_bind, z.ipv6.set_ok (by omega), ok_bind]
        exact .inr ⟨more, _, t, rfl⟩
      · exact ih (j + 1) _ room (by omega)

theorem havens_leads (sound : w.z.Sound env.conf) (rooted : w.z.Rooted (w.z.level + 1)) :
    Leads env.conf (64 * (env.conf.loops - w.z.loop) + 8 * w.z.level + 4) w.calls
      (havens env w) := by
  have room := sound.room within
  have loop := sound.loop
  unfold havens
  rcases havensGo_ok env.conf.levels env.conf.nss 0 w.z room (by have := within.nss; omega)
    within.levels with ⟨ns, hgo⟩ | ⟨more, ns, t, hgo⟩
  · rw [hgo, ok_bind]
    simp only [Bool.false_eq_true, if_false]
    rw [w.z.servers.get_ok room, ok_bind]
    split
    · refine .goto (sound.touch ns _ _) ?_ rfl (Nat.le_of_lt loop)
      show 64 * (env.conf.loops - w.z.loop) + 8 * w.z.level + 2 < _
      omega
    · rw [w.z.servers.set_ok room, ok_bind]
      obtain ⟨dtype, hdtype⟩ := dtype_ok (z := { w.z with
        ns := ns
        servers := ⟨Function.update w.z.servers.cell w.z.level
          ((w.z.servers.cell w.z.level).sort env.draw)⟩ }) room
      obtain ⟨d, c, hd, hc, tail⟩ := rooted w.z.level (Nat.lt_succ_self _)
      rw [hdtype, ok_bind, w.z.name.get_ok room, ok_bind, hd, deref, ok_bind,
        w.z.control.get_ok room, ok_bind, hc, deref, ok_bind]
      split
      · refine ⟨_, _, rfl, ⟨sound.touch ns _ _, rooted⟩, ?_, rfl, Nat.le_of_lt loop⟩
        show 64 * (env.conf.loops - w.z.loop) + 8 * w.z.level + 3 < _
        omega
      · exact .goto trivial (by show 0 < _; omega) rfl (Nat.le_of_lt loop)
  · rw [hgo, ok_bind]
    simp only [if_true]
    refine .goto ⟨⟨loop, more, rooted.setName _, sound.aliased, ?_⟩, t, ?_⟩ ?_ rfl
      (Nat.le_of_lt loop)
    · obtain ⟨d, hd⟩ := sound.asked
      refine ⟨d, ?_⟩
      show Function.update w.z.name.cell (w.z.level + 1) (some t) 0 = _
      rw [Function.update_of_ne (by omega), hd]
    · exact Function.update_self ..
    · show 64 * (env.conf.loops - w.z.loop - 1) + 63 < _
      omega

/-! ### The search for servers -/

omit within in
theorem fillNs_ok {nss level : Nat} (room : level < 5) (fits : nss ≤ 16) (names : List Name) (j : Nat)
    (z : Z) : ∃ ns, z.fillNs nss level j names = .ok { z with ns := ns } := by
  induction names generalizing j z with
  | nil => exact ⟨z.ns, by rw [Z.fillNs]⟩
  | cons t1 names ih =>
    rw [Z.fillNs]
    split
    · rw [z.ns.get_ok room, ok_bind, Arr.set_ok _ (by omega), ok_bind, z.ns.set_ok room, ok_bind]
      exact ih (j + 1) _
    · exact ih j z

/-- Whatever is found, its domain is in control. -/
theorem searchAt_leads {rank : Nat} (sound : w.z.Sound env.conf) {name d : Name}
    (hname : w.z.name.cell w.z.level = some name) (tail : d <:+ name)
    (nearer : 64 * (env.conf.loops - w.z.loop) + 8 * w.z.level + 4 < rank) :
    MayLead env.conf rank w.calls (searchAt env w d) := by
  have room := sound.room within
  have arrives : ∀ ns servers,
      Leads env.conf rank w.calls (.ok ({ w with z := { w.z with
        control := ⟨Function.update w.z.control.cell w.z.level (some d)⟩
        ns := ns
        servers := servers } }, .goto .havens)) := by
    intro ns servers
    have rooted := sound.rooted.setControl hname tail
    exact .goto ⟨⟨sound.loop, sound.level, rooted.mono (Nat.le_succ _), sound.aliased, sound.asked⟩,
      rooted⟩ nearer rfl (Nat.le_of_lt sound.loop)
  unfold searchAt
  split
  · rename_i block _
    obtain ⟨ns, hns⟩ := Z.freeNs_ok within.nss
      { w.z with servers := ⟨Function.update w.z.servers.cell w.z.level block⟩ } room
    rw [w.z.servers.set_ok room, ok_bind, hns, ok_bind, w.z.control.set_ok room, ok_bind]
    exact (arrives ns _).mayLead
  · split
    · split
      · exact .inl rfl
      · rename_i data _ _
        split
        · exact .inl rfl
        · obtain ⟨ns, hns⟩ := Z.freeNs_ok within.nss
            { w.z with
              control := ⟨Function.update w.z.control.cell w.z.level (some d)⟩
              servers := ⟨Function.update w.z.servers.cell w.z.level .zero⟩ } room
          obtain ⟨ns', hns'⟩ := fillNs_ok room within.nss (decodeNames data (data.length + 1) 0) 0
            { w.z with
              control := ⟨Function.update w.z.control.cell w.z.level (some d)⟩
              servers := ⟨Function.update w.z.servers.cell w.z.level .zero⟩
              ns := ns }
          rw [w.z.control.set_ok room, ok_bind, w.z.servers.set_ok room, ok_bind, hns, ok_bind, hns',
            ok_bind]
          exact (arrives ns' _).mayLead
    · exact .inl rfl

theorem search_leads {rank : Nat} (sound : w.z.Sound env.conf) {name d : Name}
    (hname : w.z.name.cell w.z.level = some name) (tail : d <:+ name)
    (nearer : 64 * (env.conf.loops - w.z.loop) + 8 * w.z.level + 4 < rank) :
    Leads env.conf rank w.calls (search env w d) := by
  have loop := Nat.le_of_lt sound.loop
  induction d with
  | nil =>
    rw [search]
    rcases searchAt_leads within sound hname tail nearer with hnone | ⟨y, hsome, leads⟩
    · rw [hnone, ok_bind]
      exact .goto trivial (by show 0 < _; omega) rfl loop
    · obtain ⟨w', next, rfl, rest⟩ := leads
      rw [hsome]
      exact ⟨w', next, rfl, rest⟩
  | cons l d ih =>
    rw [search]
    rcases searchAt_leads within sound hname tail nearer with hnone | ⟨y, hsome, leads⟩
    · rw [hnone, ok_bind]
      exact ih ((List.suffix_cons l d).trans tail)
    · obtain ⟨w', next, rfl, rest⟩ := leads
      rw [hsome]
      exact ⟨w', next, rfl, rest⟩

/-! ### NEWNAME -/

/-- The second family is tried, or the answers go to the level below. -/
theorem cachedAddress_leads (sound : w.z.Sound env.conf) (named : w.z.Named) (d : Name)
    (dtype type front : Bytes) (size : Nat) :
    MayLead env.conf (64 * (env.conf.loops - w.z.loop) + 63) w.calls
      (cachedAddress env w d dtype type front size) := by
  have room := sound.room within
  have loop := sound.loop
  unfold cachedAddress
  split
  · split
    · exact .inl rfl
    · rename_i data ttl _
      split
      · rw [w.z.ipv6.set_ok room, ok_bind]
        refine .goto ⟨sound.touch _ _ _, named⟩ ?_ rfl (Nat.le_of_lt loop)
        show 64 * (env.conf.loops - w.z.loop - 1) + 63 < _
        omega
      · split
        · split
          · rename_i above
            obtain ⟨servers, hservers⟩ := deposits_ok (show w.z.level - 1 < 5 by omega)
              ((decodeItems size (data.length + 1) data).map (front ++ ·)) w.z
            simp only []
            rw [hservers, ok_bind]
            refine .goto ⟨sound.touch _ servers _, above⟩ ?_ rfl (Nat.le_of_lt loop)
            show 64 * (env.conf.loops - w.z.loop) + 8 * w.z.level + 1 < _
            omega
          · exact (answer_leads within sound (by omega) _).mayLead
        · exact .inl rfl
  · exact .inl rfl

theorem cachedSet_leads (sound : w.z.Sound env.conf) (d : Name) (dtype type : Bytes) :
    MayLead env.conf (64 * (env.conf.loops - w.z.loop) + 63) w.calls
      (cachedSet env w d dtype type) := by
  unfold cachedSet
  split
  · split
    · exact .inl rfl
    · split
      · split
        · exact .goto trivial (by show 0 < _; omega) rfl (Nat.le_of_lt sound.loop)
        · exact (answer_leads within sound (by omega) _).mayLead
      · exact .inl rfl
  · exact .inl rfl

theorem cachedAnswer_leads (sound : w.z.Sound env.conf) (named : w.z.Named) (d : Name)
    (dtype : Bytes) :
    MayLead env.conf (64 * (env.conf.loops - w.z.loop) + 63) w.calls
      (cachedAnswer env w d dtype) := by
  have room := sound.room within
  have loop := sound.loop
  unfold cachedAnswer
  split
  · exact .inl rfl
  · split
    · refine .goto sound ?_ rfl (Nat.le_of_lt loop)
      show 64 * (env.conf.loops - w.z.loop) + 8 * w.z.level + 2 < _
      omega
    · split
      · rename_i data ttl _
        simp only []
        split
        · obtain ⟨first, hfirst⟩ := sound.asked
          rw [w.z.name.get_ok (by omega), ok_bind, hfirst, deref, ok_bind]
          exact (answer_leads within sound (by omega) _).mayLead
        · refine .goto sound ?_ rfl (Nat.le_of_lt loop)
          show 64 * (env.conf.loops - w.z.loop) + 8 * w.z.level + 5 < _
          omega
      · apply firstSome_mayLead
        intro x mem
        simp only [List.mem_cons, List.not_mem_nil, or_false] at mem
        rcases mem with rfl | rfl | rfl | rfl | rfl | rfl | rfl
        · exact cachedSet_leads within sound d dtype _
        · exact cachedSet_leads within sound d dtype _
        · exact cachedSet_leads within sound d dtype _
        · exact cachedSet_leads within sound d dtype _
        · exact cachedAddress_leads within sound named d dtype _ _ _
        · exact cachedAddress_leads within sound named d dtype _ _ _
        · split
          · exact .inl rfl
          · exact cachedSet_leads within sound d dtype _

theorem known_leads (sound : w.z.Sound env.conf) (d : Name) (dtype : Bytes) :
    MayLead env.conf (64 * (env.conf.loops - w.z.loop) + 63) w.calls (known env w d dtype) := by
  have room := sound.room within
  have loop := sound.loop
  have lower : ∀ servers, w.z.level ≠ 0 →
      Leads env.conf (64 * (env.conf.loops - w.z.loop) + 63) w.calls
        (.ok ({ w with z := { w.z with servers := servers } }, .goto .lowerlevel)) := by
    intro servers above
    refine .goto ⟨sound.touch _ servers _, above⟩ ?_ rfl (Nat.le_of_lt loop)
    show 64 * (env.conf.loops - w.z.loop) + 8 * w.z.level + 1 < _
    omega
  unfold known
  split
  · rename_i ip _
    split
    · rename_i above
      obtain ⟨servers, hservers⟩ := deposit_ok (z := w.z) (show w.z.level - 1 < 5 by omega)
        ( v4mappedprefix ++ ip)
      rw [hservers, ok_bind]
      exact (lower servers above).mayLead
    · exact (answer_leads within sound (by omega) _).mayLead
  · split
    · exact .inl rfl
    · split
      · rename_i above
        exact (lower w.z.servers above).mayLead
      · exact (answer_leads within sound (by omega) _).mayLead

/-- A round of NEWNAME uses up one of the loop counter. -/
theorem newname_leads (sound : w.z.Sound env.conf) (named : w.z.Named) :
    Leads env.conf (64 * (env.conf.loops - w.z.loop - 1) + 63) w.calls (newname env w) := by
  have room := sound.room within
  have loop := sound.loop
  unfold newname
  simp only []
  split
  · exact .goto trivial (by show 0 < _; omega) rfl (by show w.z.loop + 1 ≤ _; omega)
  · rename_i more
    obtain ⟨d, hd⟩ := named
    have sound' : ({ w.z with loop := w.z.loop + 1 } : Z).Sound env.conf :=
      ⟨by show w.z.loop + 1 < _; omega, sound.level, sound.rooted, sound.aliased, sound.asked⟩
    obtain ⟨dtype, hdtype⟩ := dtype_ok (z := { w.z with loop := w.z.loop + 1 }) room
    rw [w.z.name.get_ok room, ok_bind, hd, deref, ok_bind, hdtype, ok_bind]
    have rank : 64 * (env.conf.loops - w.z.loop - 1) = 64 * (env.conf.loops - (w.z.loop + 1)) := by
      omega
    rw [rank]
    have found : MayLead env.conf (64 * (env.conf.loops - (w.z.loop + 1)) + 63) w.calls
        (firstSome [known env { w with z := { w.z with loop := w.z.loop + 1 } } d dtype,
          cachedAnswer env { w with z := { w.z with loop := w.z.loop + 1 } } d dtype]) := by
      apply firstSome_mayLead
      intro x mem
      simp only [List.mem_cons, List.not_mem_nil, or_false] at mem
      rcases mem with rfl | rfl
      · exact known_leads within (w := { w with z := _ }) sound' d dtype
      · exact cachedAnswer_leads within (w := { w with z := _ }) sound' ⟨d, hd⟩ d dtype
    rcases found with hnone | ⟨y, hsome, leads⟩
    · rw [hnone, ok_bind]
      exact search_leads within sound' hd (List.suffix_refl d) (by
        show 64 * (env.conf.loops - (w.z.loop + 1)) + 8 * w.z.level + 4 < _
        omega)
    · obtain ⟨w', next, rfl, rest⟩ := leads
      rw [hsome]
      exact ⟨w', next, rfl, rest⟩

/-! ### CNAME -/

omit within in
/-- The shift moves the entries up by one; the first one stays as it was. -/
theorem shift_ok {n : Nat} {α : Type} (a : Arr n α) (limit : Nat) (room : limit < n) :
    ∃ a', toCname.shift a limit = .ok a' ∧
      ∀ i, a'.cell i = if 0 < i ∧ i ≤ limit then a.cell (i - 1) else a.cell i := by
  induction limit generalizing a with
  | zero => exact ⟨a, rfl, fun i => (if_neg (by omega)).symm⟩
  | succ j ih =>
    rw [toCname.shift, a.get_ok (by omega), ok_bind, a.set_ok room, ok_bind]
    obtain ⟨a', hshift, hcell⟩ := ih ⟨Function.update a.cell (j + 1) (a.cell j)⟩ (by omega)
    refine ⟨a', hshift, fun i => ?_⟩
    rw [hcell]
    simp only [Function.update_apply]
    by_cases last : i = j + 1
    · rw [if_neg (by omega), if_pos last, if_pos (by omega), last]
      rfl
    · by_cases inside : 0 < i ∧ i ≤ j
      · rw [if_pos inside, if_neg (by omega), if_pos (by omega)]
      · rw [if_neg inside, if_neg last, if_neg (by omega)]

theorem toCname_leads (sound : w.z.Sound env.conf) (target : Name) (ttl : Nat) :
    Leads env.conf (64 * (env.conf.loops - w.z.loop) + 8 * w.z.level + 5) w.calls
      (toCname env target ttl w) := by
  have room := sound.room within
  have loop := sound.loop
  have positive : 0 < env.conf.aliases := effective_pos (by omega)
  have fits := within.aliases
  unfold toCname
  split
  · rename_i bottom
    have last : env.conf.aliases - 1 < 16 := by omega
    rw [Arr.get_ok _ last, ok_bind]
    split
    · exact .goto trivial (by show 0 < _; omega) rfl (Nat.le_of_lt loop)
    · rename_i free
      obtain ⟨aliases, haliases, hcell⟩ := shift_ok w.z.aliases (env.conf.aliases - 1) last
      obtain ⟨aliasttl, haliasttl, _⟩ := shift_ok w.z.aliasttl (env.conf.aliases - 1) last
      rw [haliases, ok_bind, haliasttl, ok_bind, w.z.name.get_ok (by omega), ok_bind,
        aliases.set_ok (by omega), ok_bind, aliasttl.set_ok (by omega), ok_bind,
        w.z.name.set_ok (by omega), ok_bind]
      refine .goto ⟨⟨loop, sound.level, ?_, ?_, ?_⟩, target, ?_⟩ ?_ rfl (Nat.le_of_lt loop)
      · intro i below
        exact absurd below (by show ¬ i < w.z.level; omega)
      · intro i limit here
        have limit : i + 1 < env.conf.aliases := limit
        have first : ∀ j, Function.update aliases.cell 0 (w.z.name.cell 0) (j + 1) =
            if j < env.conf.aliases - 1 then w.z.aliases.cell j else w.z.aliases.cell (j + 1) := by
          intro j
          rw [Function.update_of_ne (Nat.succ_ne_zero j), hcell]
          by_cases inside : j < env.conf.aliases - 1
          · rw [if_pos (by omega), if_pos inside]
            rfl
          · rw [if_neg (by omega), if_neg inside]
        show (Function.update aliases.cell 0 (w.z.name.cell 0) i).isSome
        replace here : (Function.update aliases.cell 0 (w.z.name.cell 0) (i + 1)).isSome := here
        cases i with
        | zero =>
          obtain ⟨d, hd⟩ := sound.asked
          rw [Function.update_self, hd]
          rfl
        | succ i =>
          rw [first, if_pos (by omega)] at here
          rw [first, if_pos (by omega)]
          exact sound.aliased i (by omega) here
      · refine ⟨target, ?_⟩
        show Function.update w.z.name.cell 0 (some target) 0 = _
        rw [Function.update_self]
      · show Function.update w.z.name.cell 0 (some target) w.z.level = _
        rw [bottom, Function.update_self]
      · show 64 * (env.conf.loops - w.z.loop - 1) + 63 < _
        omega
  · rename_i above
    rw [w.z.name.set_ok room, ok_bind]
    refine .goto ⟨⟨loop, sound.level, sound.rooted.setName _, sound.aliased, ?_⟩, target, ?_⟩ ?_ rfl
      (Nat.le_of_lt loop)
    · obtain ⟨d, hd⟩ := sound.asked
      refine ⟨d, ?_⟩
      show Function.update w.z.name.cell w.z.level _ 0 = _
      rw [Function.update_of_ne (by omega), hd]
    · exact Function.update_self ..
    · show 64 * (env.conf.loops - w.z.loop - 1) + 63 < _
      omega

/-! ### HAVEPACKET -/

omit within in
theorem suffixTail_suffix {little d tail : Name} (h : suffixTail little d = some tail) : tail <:+ d := by
  induction d with
  | nil =>
    rw [suffixTail] at h
    split at h
    · cases h
      exact List.suffix_refl _
    · cases h
  | cons l d ih =>
    rw [suffixTail] at h
    split at h
    · cases h
      exact List.suffix_refl _
    · exact (ih h).trans (List.suffix_cons l d)

omit within in
theorem referralLoop_ok {nss : Nat} (fits : nss ≤ 16) (buf : Bytes) (referral : Name)
    (n pos j : Nat) (z : Z) (room : z.level < 5) :
    referralLoop nss buf referral n pos j z = .ok none ∨
      ∃ ns, referralLoop nss buf referral n pos j z = .ok (some { z with ns := ns }) := by
  induction n generalizing pos j z with
  | zero => exact .inr ⟨z.ns, rfl⟩
  | succ n ih =>
    rw [referralLoop]
    split
    · exact .inl rfl
    · split
      · split
        · exact .inl rfl
        · rw [z.ns.get_ok room, ok_bind, Arr.set_ok _ (by omega), ok_bind, z.ns.set_ok room, ok_bind]
          exact ih _ (j + 1) _ room
      · exact ih _ j z room

theorem refer_leads (sound : w.z.Sound env.conf) {d : Name}
    (hd : w.z.name.cell w.z.level = some d) (buf : Bytes) (x : Reading) :
    Leads env.conf (64 * (env.conf.loops - w.z.loop) + 64) w.calls (refer env w buf d x) := by
  have room := sound.room within
  have loop := Nat.le_of_lt sound.loop
  have dies : ∀ z : Z, z.loop = w.z.loop →
      Leads env.conf (64 * (env.conf.loops - w.z.loop) + 64) w.calls
        (.ok ({ w with z := z }, .goto .die)) := fun z same =>
    .goto trivial (by show 0 < _; omega) rfl (same.trans_le loop)
  unfold refer
  split
  · exact dies w.z rfl
  · rename_i referral _
    split
    · exact dies w.z rfl
    · rename_i tail found
      obtain ⟨ns, hns⟩ := Z.freeNs_ok within.nss { w.z with
        control := ⟨Function.update w.z.control.cell w.z.level (some tail)⟩
        servers := ⟨Function.update w.z.servers.cell w.z.level .zero⟩ } room
      rw [w.z.control.set_ok room, ok_bind, w.z.servers.set_ok room, ok_bind, hns, ok_bind]
      rcases referralLoop_ok within.nss buf referral x.numauthority x.posauthority 0 { w.z with
        control := ⟨Function.update w.z.control.cell w.z.level (some tail)⟩
        servers := ⟨Function.update w.z.servers.cell w.z.level .zero⟩
        ns := ns } room with hnone | ⟨ns', hsome⟩
      · rw [hnone, ok_bind]
        exact dies _ rfl
      · have rooted := sound.rooted.setControl hd (suffixTail_suffix found)
        rw [hsome, ok_bind]
        refine .goto ⟨⟨sound.loop, sound.level, rooted.mono (Nat.le_succ _), sound.aliased,
          sound.asked⟩, rooted⟩ ?_ rfl loop
        show 64 * (env.conf.loops - w.z.loop) + 8 * w.z.level + 4 < _
        omega

theorem answered_leads (sound : w.z.Sound env.conf) (buf : Bytes) (d : Name) (dtype : Bytes)
    (x : Reading) :
    Leads env.conf (64 * (env.conf.loops - w.z.loop) + 64) w.calls
      (answered env w buf d dtype x) := by
  have room := sound.room within
  have loop := Nat.le_of_lt sound.loop
  unfold answered
  split
  · rename_i above
    rw [w.z.servers.get_ok (by omega), ok_bind]
    simp only []
    rw [w.z.servers.set_ok (by omega), ok_bind]
    split
    · refine .goto ⟨sound.touch _ _ _, above⟩ ?_ rfl loop
      show 64 * (env.conf.loops - w.z.loop) + 8 * w.z.level + 1 < _
      omega
    · exact .goto trivial (by show 0 < _; omega) rfl loop
  · exact answer_leads within sound (by omega) _

omit within in
theorem puts_eq (store : Store σ) (w : World σ) (calls : List CacheSet) :
    ∃ cache, w.puts store calls = { w with cache := cache, calls := w.calls ++ calls } := by
  induction calls generalizing w with
  | nil => exact ⟨w.cache, by rw [List.append_nil]; rfl⟩
  | cons call calls ih =>
    obtain ⟨cache, hputs⟩ := ih (w.put store call)
    refine ⟨cache, hputs.trans ?_⟩
    show ({ w.put store call with cache := cache, calls := w.calls ++ [call] ++ calls } : World σ) = _
    rw [List.append_assoc]
    rfl

/-- What may be learned of a packet about `d` from servers in control of `control`: its record sets, as
far as the servers are heard about them, that the name is not there, and that it has no records of
the type asked for. -/
def Learned (conf : Conf) (buf : Bytes) (d control : Name) (dtype : Bytes) (call : CacheSet) : Prop :=
  (∃ ps posauthority, Sections buf ps posauthority ∧
    Filed conf buf control posauthority ps call) ∨
  call.data = [] ∧ ∃ x, readPacket buf d dtype = some x ∧
    (call.key = cacheKey dnsTAny d ∧ x.rcode = 3 ∨
      call.key = cacheKey dtype d ∧ x.scan.out = false ∧ x.scan.soa.isSome)

/-- What HAVEPACKET comes to, once the packet is read. -/
def Learns (conf : Conf) (buf : Bytes) (d control : Name) (dtype : Bytes) (rank : Nat)
    (calls : List CacheSet) (x : Except Fault (Step σ)) : Prop :=
  ∃ new, (∀ call ∈ new, Learned conf buf d control dtype call) ∧
    Leads conf rank (calls ++ new) x

omit within in
theorem Leads.learns {conf : Conf} {buf : Bytes} {d control : Name} {dtype : Bytes} {rank : Nat}
    {calls : List CacheSet} {x : Except Fault (Step σ)} (leads : Leads conf rank calls x) :
    Learns conf buf d control dtype rank calls x :=
  ⟨[], fun call mem => absurd mem List.not_mem_nil, by rwa [List.append_nil]⟩

omit within in
theorem Learns.goto {conf : Conf} {buf : Bytes} {d control : Name} {dtype : Bytes} {rank : Nat}
    {label : Label} (ready : label.Ready conf w.z) (nearer : label.rank conf w.z < rank)
    (loop : w.z.loop ≤ conf.loops) :
    Learns conf buf d control dtype rank w.calls (.ok (w, .goto label)) :=
  (Leads.goto ready nearer rfl loop).learns

theorem concluded_learns (sound : w.z.Sound env.conf) {d : Name}
    (hd : w.z.name.cell w.z.level = some d) {buf : Bytes} (control : Name) {dtype : Bytes}
    {x : Reading} (reads : readPacket buf d dtype = some x) :
    Learns env.conf buf d control dtype (64 * (env.conf.loops - w.z.loop) + 64) w.calls
      (concluded env w buf d dtype x) := by
  have room := sound.room within
  have loop := sound.loop
  unfold concluded
  split
  · refine .goto sound ?_ (Nat.le_of_lt loop)
    show 64 * (env.conf.loops - w.z.loop) + 8 * w.z.level + 5 < _
    omega
  · split
    · rename_i absent
      obtain ⟨cache, hputs⟩ := puts_eq env.store w
        (cachegeneric dnsTAny d [] (x.scan.soa.getD 0)).toList
      rw [hputs]
      refine ⟨_, ?_, .goto sound ?_ rfl (Nat.le_of_lt loop)⟩
      · intro call mem
        rw [Option.mem_toList] at mem
        obtain ⟨key, data⟩ := cachegeneric_key mem
        exact .inr ⟨data, x, reads, .inl ⟨key, absent⟩⟩
      · show 64 * (env.conf.loops - w.z.loop) + 8 * w.z.level + 2 < _
        omega
    · split
      · rename_i denied
        obtain ⟨cache, hputs⟩ := puts_eq env.store w
          (saveFinish dtype d (x.scan.soa.getD 0) saveStart).toList
        simp only []
        rw [hputs]
        refine ⟨(saveFinish dtype d (x.scan.soa.getD 0) saveStart).toList, ?_, ?_⟩
        · intro call mem
          rw [Option.mem_toList] at mem
          obtain ⟨key, data⟩ := cachegeneric_key mem
          exact .inr ⟨data, x, reads, .inr ⟨key, (Bool.not_eq_true _).mp denied.1, denied.2.1⟩⟩
        · split
          · rw [w.z.ipv6.set_ok room, ok_bind]
            refine .goto ⟨sound.touch _ _ _, d, hd⟩ ?_ rfl (Nat.le_of_lt loop)
            show 64 * (env.conf.loops - w.z.loop - 1) + 63 < _
            omega
          · exact answered_leads within
              (w := ⟨w.z, cache, w.calls ++ (saveFinish dtype d (x.scan.soa.getD 0) saveStart).toList,
                w.response⟩) sound buf d dtype x
      · split
        · exact (answered_leads within sound buf d dtype x).learns
        · exact (refer_leads within sound hd buf x).learns

omit within in
/-- The pass over the answers ends behind as many records as the header counts there. -/
theorem scanAnswers_behind {buf : Bytes} {d : Name} {dtype : Bytes} {n pos pos' : Nat}
    {scan scan' : Scan} (h : scanAnswers buf d dtype n pos scan = some (scan', pos')) :
    behindRecords buf n pos = some pos' := by
  induction n generalizing pos scan with
  | zero =>
    cases h
    rfl
  | succ n ih =>
    rw [scanAnswers] at h
    split at h
    · cases h
    · rename_i x hx
      rw [behindRecords, hx, Option.bind_some]
      split at h
      · split at h
        · exact ih h
        · split at h
          · split at h
            · cases h
            · exact ih h
          · exact ih h
      · exact ih h

omit within in
/-- The sections of a packet are where it is read from. -/
theorem readPacket_sections {buf : Bytes} {d : Name} {dtype : Bytes} {x : Reading}
    (h : readPacket buf d dtype = some x) {ps : List Nat}
    (parsed : positions buf (x.numanswers + x.numauthority + x.numglue) x.posanswers = some ps) :
    Sections buf ps x.posauthority := by
  unfold readPacket at h
  split at h
  · cases h
  · rename_i header pos hheader
    split at h
    · cases h
    · rename_i question hquestion
      simp only [] at h
      split at h
      · cases h
      · split at h
        · cases h
        · rename_i scan posauthority hscan
          split at h
          · cases h
          · cases h
            exact ⟨header, pos, question, hheader, hquestion, parsed, scanAnswers_behind hscan⟩

/-- A packet uses up one of the loop counter. -/
theorem havepacket_learns (waiting : w.z.Waiting env.conf) (buf : Bytes) (curserver : Fin 16) :
    ∃ d control dtype, w.z.name.cell w.z.level = some d ∧ w.z.control.cell w.z.level = some control ∧
      control <:+ d ∧ w.z.dtype = .ok dtype ∧
      Learns env.conf buf d control dtype (64 * (env.conf.loops - w.z.loop)) w.calls
        (havepacket env buf curserver w) := by
  obtain ⟨sound, rooted⟩ := waiting
  have room := sound.room within
  have loop := sound.loop
  obtain ⟨d, control, hd, hcontrol, tail⟩ := rooted w.z.level (Nat.lt_succ_self _)
  obtain ⟨dtype, hdtype⟩ := dtype_ok room
  refine ⟨d, control, dtype, hd, hcontrol, tail, hdtype, ?_⟩
  unfold havepacket
  simp only []
  split
  · refine .goto (w := { w with z := _ }) trivial ?_ ?_
    · show 0 < _
      omega
    · show w.z.loop + 1 ≤ _
      omega
  · rename_i more
    have sound' : ({ w.z with loop := w.z.loop + 1 } : Z).Sound env.conf :=
      ⟨by show w.z.loop + 1 < _; omega, sound.level, sound.rooted, sound.aliased, sound.asked⟩
    have loop' := Nat.le_of_lt sound'.loop
    have rank : 64 * (env.conf.loops - w.z.loop) = 64 * (env.conf.loops - (w.z.loop + 1)) + 64 := by
      omega
    have hdtype' : ({ w.z with loop := w.z.loop + 1 } : Z).dtype = .ok dtype := hdtype
    rw [w.z.control.get_ok room, ok_bind, hcontrol, deref, ok_bind, w.z.name.get_ok room, ok_bind, hd,
      deref, ok_bind, hdtype', ok_bind, rank]
    split
    · exact .goto (w := { w with z := _ }) trivial (by show 0 < _; omega) loop'
    · rename_i x reads
      split
      · rw [w.z.servers.get_ok room, ok_bind, w.z.servers.set_ok room, ok_bind]
        refine .goto (w := { w with z := _ }) ⟨sound'.touch _ _ _, rooted⟩ ?_ loop'
        show 64 * (env.conf.loops - (w.z.loop + 1)) + 8 * w.z.level + 4 < _
        omega
      · have learned : ∀ call ∈ filed (file env.conf buf control
            (x.numanswers + x.numauthority + x.numglue) x.posanswers x.posauthority),
            Learned env.conf buf d control dtype call := by
          intro call mem
          obtain ⟨ps, parsed, isFiled⟩ := file_filed env.conf buf control x.posauthority call mem
          exact .inl ⟨ps, _, readPacket_sections reads parsed, isFiled⟩
        split
        · rename_i calls hfile
          rw [hfile] at learned
          obtain ⟨cache, hputs⟩ := puts_eq env.store { w with z := { w.z with loop := w.z.loop + 1 } }
            calls
          rw [hputs]
          exact ⟨calls, learned, .goto trivial (by show 0 < _; omega) rfl loop'⟩
        · rename_i calls hfile
          rw [hfile] at learned
          obtain ⟨cache, hputs⟩ := puts_eq env.store { w with z := { w.z with loop := w.z.loop + 1 } }
            calls
          rw [hputs]
          refine ⟨calls, learned, .goto sound' ?_ rfl loop'⟩
          show 64 * (env.conf.loops - (w.z.loop + 1)) + 8 * w.z.level + 2 < _
          omega
        · rename_i calls hfile
          rw [hfile] at learned
          obtain ⟨cache, hputs⟩ := puts_eq env.store { w with z := { w.z with loop := w.z.loop + 1 } }
            calls
          rw [hputs]
          obtain ⟨new, learned', leads⟩ := concluded_learns within
            (w := ⟨{ w.z with loop := w.z.loop + 1 }, cache, w.calls ++ calls, w.response⟩) sound' hd
            control reads
          refine ⟨calls ++ new, ?_, by rwa [← List.append_assoc]⟩
          exact List.forall_mem_append.mpr ⟨learned, learned'⟩

end Steps

end TinyDnssec.Dnscache
