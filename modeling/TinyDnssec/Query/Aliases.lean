import TinyDnssec.Query.Replies

/-!
# dnscache: the aliases a query has followed

A CNAME at level 0 replaces the name a query is about. The names before it are kept in `aliases`,
the latest one first, and in `aliasttl` the ttl each was left with; `rqa` of `query.c` turns them
around and begins the reply with them. `Z.Follows` is what the arrays hold once some CNAMEs have been
followed, and `rqa_told` what is replied then.

That the packets and the cache told the aliases is not said here; `Followed` has that.
-/

namespace TinyDnssec.Dnscache

open Octets Loop

/-! ## Chains -/

/-- What a client asks, as its packet was read. -/
structure Asked where
  name : Name
  type : Bytes
  cls : Bytes
  valid : Valid name
  typeTwo : type.length = 2
  clsTwo : cls.length = 2

/-- A CNAME that has been followed. -/
structure Link where
  target : Name
  ttl : Nat
deriving DecidableEq

/-- The records that lead from a name along its CNAMEs. -/
def chain (hidettl : Bool) : Name → List Link → List TinyDnssec.Entry
  | _, [] => []
  | d, link :: links =>
    replyEntry hidettl d dnsTCname link.ttl [.name link.target] :: chain hidettl link.target links

/-- **A reply reports** the question, as the client has put it, and behind it the CNAMEs that were
followed. -/
def Reports (hidettl : Bool) (q : Asked) (links : List Link) (buf : Bytes) : Prop :=
  questionOctets q.name q.type q.cls <+: buf.drop 12 ∧
    ∃ rest, Says buf q.name { answer := chain hidettl q.name links ++ rest }

/-- The name at work, and those before it with the ttl each was left with, the latest one first. -/
structure Trail where
  current : Name
  before : List (Name × Nat)

def Trail.follow (t : Trail) (link : Link) : Trail := ⟨link.target, (t.current, link.ttl) :: t.before⟩

def trail (dn : Name) (links : List Link) : Trail := links.foldl Trail.follow ⟨dn, []⟩

theorem trail_snoc (dn : Name) (links : List Link) (link : Link) :
    trail dn (links ++ [link]) = (trail dn links).follow link := by
  unfold trail
  rw [List.foldl_append]
  rfl

theorem trail_length (dn : Name) (links : List Link) : (trail dn links).before.length = links.length := by
  induction links using List.reverseRecOn with
  | nil => rfl
  | append_singleton links link ih =>
    rw [trail_snoc, List.length_append]
    show (trail dn links).before.length + 1 = _
    rw [ih]
    rfl

/-- The oldest of the aliases is the name the client has asked for. -/
theorem trail_oldest {dn c : Name} {links : List Link} {i ttl : Nat}
    (h : (trail dn links).before[i]? = some (c, ttl)) (top : i + 1 = links.length) : c = dn := by
  induction links using List.reverseRecOn generalizing i ttl with
  | nil => cases top
  | append_singleton links link ih =>
    rw [trail_snoc] at h
    rw [List.length_append] at top
    cases i with
    | zero =>
      obtain rfl : links = [] := List.length_eq_zero_iff.mp (Nat.succ.inj top).symm
      exact (Prod.mk.inj (Option.some.inj h)).1.symm
    | succ i => exact ih h (Nat.succ.inj top)

/-- The records of the aliases that end in `d`, the oldest first. -/
def told (hidettl : Bool) : List (Name × Nat) → Name → List TinyDnssec.Entry
  | [], _ => []
  | (c, ttl) :: before, d =>
    told hidettl before c ++ [replyEntry hidettl c dnsTCname ttl [.name d]]

theorem told_foldl (hidettl : Bool) (links : List Link) (t : Trail) :
    told hidettl (links.foldl Trail.follow t).before (links.foldl Trail.follow t).current =
      told hidettl t.before t.current ++ chain hidettl t.current links := by
  induction links generalizing t with
  | nil => exact (List.append_nil _).symm
  | cons link links ih =>
    rw [List.foldl_cons, ih]
    show told hidettl t.before t.current ++ _ ++ chain hidettl link.target links = _
    rw [List.append_assoc]
    rfl

theorem told_trail (hidettl : Bool) (dn : Name) (links : List Link) :
    told hidettl (trail dn links).before (trail dn links).current = chain hidettl dn links := by
  unfold trail
  rw [told_foldl]
  rfl

/-- The record of the oldest alias comes first. -/
theorem told_snoc (hidettl : Bool) (before : List (Name × Nat)) (c d : Name) (ttl : Nat) :
    told hidettl (before ++ [(c, ttl)]) d =
      replyEntry hidettl c dnsTCname ttl [.name ((before.getLast?.map Prod.fst).getD d)] ::
        told hidettl before d := by
  induction before generalizing d with
  | nil => rfl
  | cons x before ih =>
    obtain ⟨c', ttl'⟩ := x
    rw [List.cons_append, told, ih, told, List.cons_append]
    cases before with
    | nil => rfl
    | cons y before =>
      rw [List.getLast?_cons_cons]
      cases h : (y :: before).getLast? with
      | none => exact absurd h (by simp)
      | some last => rfl

/-! ## The arrays -/

/-- What the query says of the aliases it has followed. -/
structure Z.Follows (conf : Conf) (q : Asked) (links : List Link) (z : Z) : Prop where
  few : links.length ≤ conf.aliases
  name : z.name.cell 0 = some (trail q.name links).current
  aliases : ∀ i < conf.aliases, z.aliases.cell i = ((trail q.name links).before[i]?).map Prod.fst
  aliasttl : ∀ i c ttl, (trail q.name links).before[i]? = some (c, ttl) → z.aliasttl.cell i = ttl
  valid : ∀ link ∈ links, Valid link.target
  type : z.type = q.type
  cls : z.cls = q.cls

/-- What tells of the aliases is as before. -/
structure Z.Kept (z z' : Z) : Prop where
  name : z'.name.cell 0 = z.name.cell 0
  aliases : z'.aliases = z.aliases
  aliasttl : z'.aliasttl = z.aliasttl
  type : z'.type = z.type
  cls : z'.cls = z.cls

section Follows

variable {conf : Conf} {q : Asked} {links : List Link} {z : Z}

theorem Z.Follows.kept {z' : Z} (follows : z.Follows conf q links) (kept : z.Kept z') :
    z'.Follows conf q links where
  few := follows.few
  name := kept.name.trans follows.name
  aliases := kept.aliases ▸ follows.aliases
  aliasttl := kept.aliasttl ▸ follows.aliasttl
  valid := follows.valid
  type := kept.type.trans follows.type
  cls := kept.cls.trans follows.cls

/-- The name at work is a name, and so is every alias. -/
theorem trail_valid (targets : ∀ link ∈ links, Valid link.target) :
    Valid (trail q.name links).current ∧ ∀ x ∈ (trail q.name links).before, Valid x.1 := by
  induction links using List.reverseRecOn with
  | nil => exact ⟨q.valid, fun x mem => absurd mem List.not_mem_nil⟩
  | append_singleton links link ih =>
    obtain ⟨current, before⟩ := ih fun l mem => targets l (List.mem_append_left _ mem)
    rw [trail_snoc]
    refine ⟨targets link (List.mem_append_right _ (List.mem_singleton_self _)), fun x mem => ?_⟩
    rcases List.mem_cons.mp mem with rfl | mem
    · exact current
    · exact before x mem

/-! ## rqa -/

theorem Arr.get_eq_ok {n : Nat} {α : Type} {a : Arr n α} {i : Nat} {x : α} :
    a.get i = .ok x ↔ i < n ∧ x = a.cell i := by
  unfold Arr.get
  split
  · rename_i inside
    rw [Except.ok.injEq]
    exact ⟨fun h => ⟨inside, h.symm⟩, fun h => h.2.symm⟩
  · rename_i outside
    exact iff_of_false nofun fun h => outside h.1

theorem Arr.set_eq_ok {n : Nat} {α : Type} {a a' : Arr n α} {i : Nat} {x : α} :
    a.set i x = .ok a' ↔ i < n ∧ a' = ⟨Function.update a.cell i x⟩ := by
  unfold Arr.set
  split
  · rename_i inside
    rw [Except.ok.injEq]
    exact ⟨fun h => ⟨inside, h.symm⟩, fun h => h.2.symm⟩
  · rename_i outside
    exact iff_of_false nofun fun h => outside h.1

theorem deref_eq_ok {α : Type} {p : Option α} {x : α} : deref p = .ok x ↔ p = some x := by
  cases p with
  | none => exact iff_of_false nofun nofun
  | some y => exact ⟨fun h => congrArg some (Except.ok.inj h), fun h => congrArg Except.ok (Option.some.inj h)⟩

/-- The oldest alias is found. -/
theorem rqaFind_oldest (length : Nat) {limit : Nat}
    (here : ∀ i < length, (z.aliases.cell i).isSome)
    (free : ∀ i, length ≤ i → i < limit → z.aliases.cell i = none) (reach : length ≤ limit)
    {found : Option Nat} (h : rqaFind z limit = .ok found) :
    found = if length = 0 then none else some (length - 1) := by
  induction limit with
  | zero =>
    rw [if_pos (Nat.le_zero.mp reach)]
    exact (Except.ok.inj h).symm
  | succ limit ih =>
    obtain ⟨a, hget, h⟩ := bind_eq_ok.mp h
    obtain ⟨_, rfl⟩ := Arr.get_eq_ok.mp hget
    by_cases top : length = limit + 1
    · rw [if_pos (here limit (by omega))] at h
      rw [if_neg (by omega), ← Except.ok.inj h, top]
      rfl
    · rw [free limit (by omega) (Nat.lt_succ_self _)] at h
      exact ih (fun i behind below => free i behind (by omega)) (by omega) h

/-- What the arrays hold at an alias. -/
theorem Z.Follows.entry (follows : z.Follows conf q links) {i : Nat}
    (here : i < links.length) :
    ∃ c ttl, (trail q.name links).before[i]? = some (c, ttl) ∧ z.aliases.cell i = some c ∧
      z.aliasttl.cell i = ttl ∧ Valid c := by
  have few := follows.few
  obtain ⟨⟨c, ttl⟩, hx⟩ : ∃ x, (trail q.name links).before[i]? = some x :=
    ⟨_, List.getElem?_eq_getElem (by rw [trail_length]; exact here)⟩
  refine ⟨c, ttl, hx, ?_, follows.aliasttl i c ttl hx,
    (trail_valid follows.valid).2 _ (List.mem_of_getElem? hx)⟩
  rw [follows.aliases i (by omega), hx]
  rfl

theorem told_take {hidettl : Bool} {before : List (Name × Nat)} {i : Nat} {c : Name} {ttl : Nat}
    (hx : before[i]? = some (c, ttl)) (d : Name) :
    told hidettl (before.take (i + 1)) d =
      replyEntry hidettl c dnsTCname ttl [.name (((before.take i).getLast?.map Prod.fst).getD d)] ::
        told hidettl (before.take i) d := by
  rw [List.take_add_one, hx, ← told_snoc]
  rfl

theorem andThen_eq_ok {b : Build} {more : Response → Except Fault Build} {r' : Response}
    (h : andThen b more = .ok (.ok r')) : ∃ r, b = .ok r ∧ more r = .ok (.ok r') := by
  cases b with
  | error r => cases h
  | ok r => exact ⟨r, rfl, h⟩

/-- The loop of `rqa` from an entry on down: the records of the aliases up to it. -/
theorem rqaChain_told (follows : z.Follows conf q links) {i : Nat}
    (here : i < links.length) {r r' : Response} {log : Log} (idle : Idle r q.name log)
    (isOpen : log.Open .answer) (h : rqaChain conf.hidettl z i r = .ok (.ok r')) :
    Added q.name log r r'
      (told conf.hidettl ((trail q.name links).before.take (i + 1)) (trail q.name links).current) := by
  induction i generalizing r log with
  | zero =>
    obtain ⟨c, ttl, hx, hc, httl, validC⟩ := follows.entry here
    obtain ⟨_, hget, h⟩ := bind_eq_ok.mp h
    obtain ⟨_, hderef, h⟩ := bind_eq_ok.mp h
    obtain ⟨_, hget', h⟩ := bind_eq_ok.mp h
    obtain ⟨_, hderef', h⟩ := bind_eq_ok.mp h
    obtain ⟨_, hget'', h⟩ := bind_eq_ok.mp h
    obtain ⟨_, rfl⟩ := Arr.get_eq_ok.mp hget
    obtain ⟨_, rfl⟩ := Arr.get_eq_ok.mp hget'
    obtain ⟨_, rfl⟩ := Arr.get_eq_ok.mp hget''
    cases hc.symm.trans (deref_eq_ok.mp hderef)
    cases follows.name.symm.trans (deref_eq_ok.mp hderef')
    rw [told_take hx, ← httl]
    exact responseCname_added validC (trail_valid follows.valid).1 idle isOpen
      (Except.ok.inj h)
  | succ i ih =>
    obtain ⟨c, ttl, hx, hc, httl, validC⟩ := follows.entry here
    obtain ⟨d, ttl', hx', hd, _, validD⟩ := follows.entry (Nat.lt_of_succ_lt here)
    obtain ⟨_, hget, h⟩ := bind_eq_ok.mp h
    obtain ⟨_, hderef, h⟩ := bind_eq_ok.mp h
    obtain ⟨_, hget', h⟩ := bind_eq_ok.mp h
    obtain ⟨_, hderef', h⟩ := bind_eq_ok.mp h
    obtain ⟨_, hget'', h⟩ := bind_eq_ok.mp h
    obtain ⟨_, rfl⟩ := Arr.get_eq_ok.mp hget
    obtain ⟨_, rfl⟩ := Arr.get_eq_ok.mp hget'
    obtain ⟨_, rfl⟩ := Arr.get_eq_ok.mp hget''
    cases hc.symm.trans (deref_eq_ok.mp hderef)
    cases hd.symm.trans (deref_eq_ok.mp hderef')
    obtain ⟨r₁, one, h⟩ := andThen_eq_ok h
    obtain ⟨idle₁, behind₁⟩ := responseCname_added validC validD idle isOpen one
    obtain ⟨idle₂, behind₂⟩ := ih (Nat.lt_of_succ_lt here) idle₁ (Log.open_add isOpen _) h
    have next : ((trail q.name links).before.take (i + 1)).getLast?.map Prod.fst = some d := by
      rw [List.take_add_one, hx', List.getLast?_append]
      rfl
    rw [told_take hx, next, ← httl]
    refine ⟨?_, behind₁.trans behind₂⟩
    rwa [← Log.add_append] at idle₂

/-- **A reply begins with the client's question and the aliases.** -/
theorem rqa_told (follows : z.Follows conf q links) {r r' : Response}
    (h : rqa conf z r = .ok (.ok r')) :
    Idle r' q.name { answer := chain conf.hidettl q.name links } ∧
      questionOctets q.name q.type q.cls <+: r'.bytes.drop 12 := by
  have few := follows.few
  have isOpen : ({} : Log).Open .answer := ⟨rfl, rfl⟩
  obtain ⟨found, hfind, h⟩ := bind_eq_ok.mp h
  have oldest := rqaFind_oldest links.length
    (fun i below => by
      obtain ⟨c, _, _, hc, _⟩ := follows.entry below
      rw [hc]
      rfl)
    (fun i behind below => by
      rw [follows.aliases i below, List.getElem?_eq_none (by rw [trail_length]; exact behind)]
      rfl) few hfind
  subst oldest
  by_cases first : links.length = 0
  · obtain rfl := List.length_eq_zero_iff.mp first
    rw [if_pos first] at h
    obtain ⟨_, hget, h⟩ := bind_eq_ok.mp h
    obtain ⟨_, hderef, h⟩ := bind_eq_ok.mp h
    obtain ⟨_, rfl⟩ := Arr.get_eq_ok.mp hget
    cases follows.name.symm.trans (deref_eq_ok.mp hderef)
    have built := Except.ok.inj h
    rw [follows.type, follows.cls] at built
    exact ⟨responseQuery_idle q.valid q.typeTwo q.clsTwo built, responseQuery_octets built⟩
  · rw [if_neg first] at h
    obtain ⟨c, ttl, hx, hc, _, validC⟩ := follows.entry (Nat.sub_one_lt first)
    obtain ⟨c', hget, h⟩ := bind_eq_ok.mp h
    obtain rfl := (Arr.get_eq_ok.mp hget).2
    rw [hc] at h
    obtain ⟨r₁, hquery, h⟩ := andThen_eq_ok (b := responseQuery c z.type z.cls r) h
    rw [follows.type, follows.cls] at hquery
    have top : links.length - 1 + 1 = links.length := Nat.sub_add_cancel (Nat.pos_of_ne_zero first)
    have oldest := trail_oldest hx top
    rw [oldest] at hquery
    have idle := responseQuery_idle q.valid q.typeTwo q.clsTwo hquery
    obtain ⟨idle', behind⟩ := rqaChain_told follows (Nat.sub_one_lt first) idle isOpen h
    rw [top, ← trail_length q.name links, List.take_length, told_trail] at idle'
    exact ⟨idle', (responseQuery_octets hquery).trans behind⟩

end Follows

end TinyDnssec.Dnscache
