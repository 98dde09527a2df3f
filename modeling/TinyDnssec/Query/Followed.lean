import TinyDnssec.Query.Logged

/-!
# dnscache: following CNAMEs

What the labels of `doit` make of the aliases. `followed` is what a call has followed, and `Followed`
says it of the calls of a query so far; `Z.Follows` is the invariant, which `step_told` proves of
every label. A CNAME out of the cache is a name only because `doit` itself has put it there, so the
cache is one that keeps what it is given, and that `doit` alone has filled.

That a chain of aliases leads to an answer is not established.
-/

namespace TinyDnssec.Dnscache

open Octets Loop

/-! ## The cache -/

/-- A cache gives back what it has been given, and nothing else. -/
structure Store.Keeps {σ : Type} (store : Store σ) (held : σ → CacheSet → Prop) : Prop where
  get : ∀ {c key data ttl}, store.get c key = some (data, ttl) →
    ∃ call, held c call ∧ call.key = key ∧ call.data = data
  set : ∀ {c call call'}, held (store.set c call) call' → held c call' ∨ call' = call

/-- A call of `cache_set` that `doit` can make: for what is not there, or for a record set of some
packet. -/
def Written (conf : Conf) (call : CacheSet) : Prop :=
  call.data = [] ∨ ∃ buf posauthority ps g, Sections buf ps posauthority ∧ IsSet buf ps g ∧
    saveSet conf buf posauthority g = .ok (some call)

theorem readName_wire {n : Name} (valid : ∀ l ∈ n, ValidLabel l) {rounds : Nat}
    (enough : (wire n).length ≤ rounds) : readName rounds (wire n) = n := by
  induction n generalizing rounds with
  | nil =>
    cases rounds with
    | zero => rfl
    | succ rounds => rfl
  | cons l n ih =>
    have one := valid l List.mem_cons_self
    have octet := lengthOctet_toNat one.short
    cases rounds with
    | zero => cases enough
    | succ rounds =>
      have positive : UInt8.ofNat l.length ≠ 0 := by
        intro zero
        rw [zero] at octet
        exact absurd octet.symm (Nat.ne_of_gt one.length_pos)
      show readName (rounds + 1) (UInt8.ofNat l.length :: (l ++ wire n)) = _
      rw [readName, if_neg positive, octet, List.take_left, List.drop_left]
      rw [ih fun k mem => valid k (List.mem_cons_of_mem _ mem)]
      simp only [wire, List.length_cons, List.length_append] at enough
      omega

theorem saveSet_cname {conf : Conf} {buf : Bytes} {posauthority : Nat} {g : RrSet} {call : CacheSet}
    (cname : g.type = dnsTCname) (h : saveSet conf buf posauthority g = .ok (some call)) :
    ∃ t2, Valid t2 ∧ call.data = wire t2 := by
  unfold saveSet at h
  rw [cname, if_neg (by decide), if_neg (by decide), if_pos rfl] at h
  obtain ⟨_, _, h⟩ := bind_eq_ok.mp h
  obtain ⟨⟨t2, _⟩, hname, h⟩ := bind_eq_ok.mp h
  exact ⟨t2, dnsPacketGetname_valid (orDie_eq_ok.mp hname), (cachegeneric_key (Except.ok.inj h)).2⟩

/-- What is cached as a CNAME is the string of a name. -/
theorem Written.target {conf : Conf} {call : CacheSet} (written : Written conf call) {d : Name}
    (key : call.key = cacheKey dnsTCname d) : Valid (readName call.data.length call.data) := by
  rcases written with empty | ⟨buf, posauthority, ps, g, sections, isSet, saved⟩
  · rw [empty]
    exact Valid.nil
  · obtain ⟨cname, _⟩ :=
      cacheKey_inj (isSet.type_two sections) ((saveSet_key saved).symm.trans key)
    obtain ⟨t2, valid, data⟩ := saveSet_cname cname saved
    rw [data, readName_wire valid.labels (Nat.le_refl _)]
    exact valid

/-! ## The labels -/

/-- A query that has followed `links`, and a cache that `doit` has filled. -/
structure World.Follows {σ : Type} (env : Env σ) (held : σ → CacheSet → Prop) (q : Asked)
    (links : List Link) (w : World σ) : Prop where
  query : w.z.Follows env.conf q links
  cache : ∀ call, held w.cache call → Written env.conf call

/-- What holds behind a label: the query has followed `links`, and it is answered with them. A CNAME
that is to be followed at level 0 is one that `tells` of the name at work. -/
def Told {σ : Type} (env : Env σ) (held : σ → CacheSet → Prop) (tells : Name → Link → Prop)
    (q : Asked) (links : List Link) (y : Step σ) : Prop :=
  (∀ call, held y.1.cache call → Written env.conf call) ∧
  match y.2 with
  | .goto label => y.1.Follows env held q links ∧ ∀ target ttl, label = .cname target ttl →
      Valid target ∧ (y.1.z.level = 0 → tells (trail q.name links).current ⟨target, ttl⟩)
  | .done .failed => True
  | .done (.sent _) => y.1.Follows env held q links
  | .done (.answered r) =>
    links.length ≤ env.conf.aliases ∧ Reports env.conf.hidettl q links r.bytes

theorem Z.Kept.refl (z : Z) : z.Kept z := ⟨rfl, rfl, rfl, rfl, rfl⟩

theorem freeNs_eq_ok {nss level : Nat} {z z' : Z} (h : z.freeNs nss level = .ok z') :
    ∃ ns, z' = { z with ns := ns } := by
  obtain ⟨row, _, h⟩ := bind_eq_ok.mp h
  obtain ⟨row', _, h⟩ := bind_eq_ok.mp h
  obtain ⟨ns, _, h⟩ := bind_eq_ok.mp h
  exact ⟨ns, (Except.ok.inj h).symm⟩

theorem deposit_eq_ok {level : Nat} {address : Bytes} {z z' : Z}
    (h : z.deposit level address = .ok z') : ∃ servers, z' = { z with servers := servers } := by
  obtain ⟨block, _, h⟩ := bind_eq_ok.mp h
  split at h
  · obtain ⟨servers, _, h⟩ := bind_eq_ok.mp h
    exact ⟨servers, (Except.ok.inj h).symm⟩
  · exact ⟨z.servers, (Except.ok.inj h).symm⟩

theorem deposits_eq_ok {level : Nat} {addresses : List Bytes} {z z' : Z}
    (h : z.deposits level addresses = .ok z') : ∃ servers, z' = { z with servers := servers } := by
  induction addresses generalizing z with
  | nil => exact ⟨z.servers, (Except.ok.inj h).symm⟩
  | cons address addresses ih =>
    obtain ⟨z₁, one, rest⟩ := bind_eq_ok.mp h
    obtain ⟨servers, rfl⟩ := deposit_eq_ok one
    obtain ⟨servers', rfl⟩ := ih rest
    exact ⟨servers', rfl⟩

theorem fillNs_eq_ok {nss level j : Nat} {names : List Name} {z z' : Z}
    (h : z.fillNs nss level j names = .ok z') : ∃ ns, z' = { z with ns := ns } := by
  induction names generalizing z j with
  | nil =>
    rw [Z.fillNs] at h
    exact ⟨z.ns, (Except.ok.inj h).symm⟩
  | cons t1 names ih =>
    rw [Z.fillNs] at h
    split at h
    · obtain ⟨row, _, h⟩ := bind_eq_ok.mp h
      obtain ⟨row', _, h⟩ := bind_eq_ok.mp h
      obtain ⟨ns, _, h⟩ := bind_eq_ok.mp h
      obtain ⟨ns', rfl⟩ := ih h
      exact ⟨ns', rfl⟩
    · exact ih h

theorem referralLoop_eq_ok {nss : Nat} {buf : Bytes} {referral : Name} {n pos j : Nat} {z z' : Z}
    (h : referralLoop nss buf referral n pos j z = .ok (some z')) : ∃ ns, z' = { z with ns := ns } := by
  induction n generalizing pos j z with
  | zero => exact ⟨z.ns, (Option.some.inj (Except.ok.inj h)).symm⟩
  | succ n ih =>
    rw [referralLoop] at h
    split at h
    · cases h
    · split at h
      · split at h
        · cases h
        · obtain ⟨row, _, h⟩ := bind_eq_ok.mp h
          obtain ⟨row', _, h⟩ := bind_eq_ok.mp h
          obtain ⟨ns, _, h⟩ := bind_eq_ok.mp h
          obtain ⟨ns', rfl⟩ := ih h
          exact ⟨ns', rfl⟩
      · exact ih h

/-- HAVENS goes to a name of its level, or a level up. -/
theorem havensGo_kept {levels rounds j : Nat} {z z' : Z} {deeper : Bool}
    (h : havensGo levels rounds j z = .ok (z', deeper)) : z.Kept z' := by
  induction rounds generalizing j z with
  | zero =>
    cases h
    exact .refl _
  | succ rounds ih =>
    rw [havensGo] at h
    obtain ⟨row, _, h⟩ := bind_eq_ok.mp h
    obtain ⟨x, _, h⟩ := bind_eq_ok.mp h
    split at h
    · exact ih h
    · rename_i t _
      obtain ⟨freed, _, h⟩ := bind_eq_ok.mp h
      obtain ⟨ns, _, h⟩ := bind_eq_ok.mp h
      split at h
      · obtain ⟨name, hname, h⟩ := bind_eq_ok.mp h
        obtain ⟨ipv6, _, h⟩ := bind_eq_ok.mp h
        obtain ⟨_, rfl⟩ := Arr.set_eq_ok.mp hname
        cases h
        refine ⟨?_, rfl, rfl, rfl, rfl⟩
        exact Function.update_of_ne (Nat.succ_ne_zero z.level).symm (some t) z.name.cell
      · obtain ⟨name, aliases, aliasttl, type, cls⟩ := ih h
        exact ⟨name, aliases, aliasttl, type, cls⟩

section Labels

variable {σ : Type} {env : Env σ} {held : σ → CacheSet → Prop} {tells : Name → Link → Prop}
  {q : Asked} {links : List Link} {w : World σ} {y : Step σ}

theorem World.Follows.kept {w' : World σ} (follows : w.Follows env held q links)
    (kept : w.z.Kept w'.z) (cache : w'.cache = w.cache) : w'.Follows env held q links :=
  ⟨follows.query.kept kept, cache ▸ follows.cache⟩

/-- A label other than CNAME is next. -/
theorem Told.goto {label : Label} (follows : w.Follows env held q links)
    (plain : ∀ target ttl, label ≠ .cname target ttl) : Told env held tells q links (w, .goto label) :=
  ⟨follows.cache, follows, fun target ttl cname => absurd cname (plain target ttl)⟩

section

variable (follows : w.Follows env held q links)
include follows

/-- An answer begins with the aliases, whatever goes into it besides. -/
theorem answer_told {more : Response → Build} (adds : Adds more) (h : answer env w more = .ok y) :
    Told env held tells q links y := by
  obtain ⟨b, hrqa, h⟩ := bind_eq_ok.mp h
  cases reply : b >>= more with
  | error r =>
    rw [reply] at h
    cases h
    exact .goto (follows.kept (.refl w.z) rfl) nofun
  | ok r =>
    rw [reply] at h
    obtain ⟨z, _, h⟩ := bind_eq_ok.mp h
    cases h
    obtain ⟨r₁, rfl, built⟩ := bind_eq_ok.mp reply
    obtain ⟨idle, question⟩ := rqa_told follows.query hrqa
    obtain ⟨rest, idle', behind⟩ := adds idle ⟨rfl, rfl⟩ built
    exact ⟨follows.cache, follows.query.few, question.trans behind, rest, idle'.message⟩

theorem giveUp_told {tell : Response → Response} (adds : Adds fun r => .ok (tell r))
    (h : giveUp env tell w = .ok y) : Told env held tells q links y := by
  unfold giveUp at h
  split at h
  · cases h
    exact .goto follows nofun
  · exact answer_told follows adds h

theorem lowerlevel_told (h : lowerlevel env w = .ok y) : Told env held tells q links y := by
  obtain ⟨name, hname, h⟩ := bind_eq_ok.mp h
  obtain ⟨_, rfl⟩ := Arr.set_eq_ok.mp hname
  obtain ⟨z, hz, h⟩ := bind_eq_ok.mp h
  obtain ⟨ns, rfl⟩ := freeNs_eq_ok hz
  split at h
  · cases h
  · rename_i above
    cases h
    exact .goto (follows.kept ⟨Function.update_of_ne (Ne.symm above) _ _, rfl, rfl, rfl, rfl⟩ rfl) nofun

theorem havens_told (h : havens env w = .ok y) : Told env held tells q links y := by
  obtain ⟨⟨z, deeper⟩, hgo, h⟩ := bind_eq_ok.mp h
  have kept := havensGo_kept hgo
  simp only [] at h
  split at h
  · cases h
    exact .goto (follows.kept kept rfl) nofun
  · obtain ⟨block, _, h⟩ := bind_eq_ok.mp h
    split at h
    · cases h
      exact .goto (follows.kept kept rfl) nofun
    · obtain ⟨servers, _, h⟩ := bind_eq_ok.mp h
      obtain ⟨dtype, _, h⟩ := bind_eq_ok.mp h
      obtain ⟨d, _, h⟩ := bind_eq_ok.mp h
      obtain ⟨name, _, h⟩ := bind_eq_ok.mp h
      obtain ⟨control, _, h⟩ := bind_eq_ok.mp h
      obtain ⟨_, _, h⟩ := bind_eq_ok.mp h
      have sent : ({ w with z := { z with servers := servers } } : World σ).Follows env held q links :=
        follows.kept ⟨kept.name, kept.aliases, kept.aliasttl, kept.type, kept.cls⟩ rfl
      split at h
      · cases h
        exact ⟨sent.cache, sent⟩
      · cases h
        exact .goto sent nofun

/-! ### NEWNAME -/

theorem searchAt_told {d : Name} (h : searchAt env w d = .ok (some y)) : Told env held tells q links y := by
  unfold searchAt at h
  split at h
  · obtain ⟨servers, _, h⟩ := bind_eq_ok.mp h
    obtain ⟨z, hz, h⟩ := bind_eq_ok.mp h
    obtain ⟨ns, rfl⟩ := freeNs_eq_ok hz
    obtain ⟨control, _, h⟩ := bind_eq_ok.mp h
    cases h
    exact .goto (follows.kept ⟨rfl, rfl, rfl, rfl, rfl⟩ rfl) nofun
  · split at h
    · split at h
      · cases h
      · split at h
        · cases h
        · obtain ⟨control, _, h⟩ := bind_eq_ok.mp h
          obtain ⟨servers, _, h⟩ := bind_eq_ok.mp h
          obtain ⟨z, hz, h⟩ := bind_eq_ok.mp h
          obtain ⟨ns, rfl⟩ := freeNs_eq_ok hz
          obtain ⟨z', hz', h⟩ := bind_eq_ok.mp h
          obtain ⟨ns', rfl⟩ := fillNs_eq_ok hz'
          cases h
          exact .goto (follows.kept ⟨rfl, rfl, rfl, rfl, rfl⟩ rfl) nofun
    · cases h

theorem search_told {d : Name} (h : search env w d = .ok y) : Told env held tells q links y := by
  induction d with
  | nil =>
    obtain ⟨found, hfound, h⟩ := bind_eq_ok.mp h
    cases found with
    | none =>
      cases h
      exact .goto follows nofun
    | some step =>
      cases h
      exact searchAt_told follows hfound
  | cons l d ih =>
    obtain ⟨found, hfound, h⟩ := bind_eq_ok.mp h
    cases found with
    | none => exact ih h
    | some step =>
      cases h
      exact searchAt_told follows hfound

theorem known_told {d : Name} {dtype : Bytes} (bottom : w.z.level = 0 → Valid d)
    (h : known env w d dtype = .ok (some y)) : Told env held tells q links y := by
  unfold known at h
  split at h
  · rename_i ip _
    split at h
    · obtain ⟨z, hz, h⟩ := bind_eq_ok.mp h
      obtain ⟨servers, rfl⟩ := deposit_eq_ok hz
      cases h
      exact .goto (follows.kept ⟨rfl, rfl, rfl, rfl, rfl⟩ rfl) nofun
    · rename_i level
      refine answer_told follows (Adds.ite ?_ Adds.ok) (map_some_eq_ok h)
      exact addRecord_adds (bottom (not_not.mp level)) (by rfl) fun n mem => by
        cases List.mem_singleton.mp mem
  · split at h
    · cases h
    · rename_i x hx
      split at h
      · cases h
        exact .goto follows nofun
      · rename_i level
        refine answer_told follows (Adds.ite ?_ Adds.ok) (map_some_eq_ok h)
        obtain ⟨two, names⟩ := special_valid hx
        exact addRecord_adds (bottom (not_not.mp level)) two names

theorem cachedSet_told {d : Name} {dtype type : Bytes} (two : type.length = 2)
    (valid : typematch type dtype = true → Valid d)
    (h : cachedSet env w d dtype type = .ok (some y)) : Told env held tells q links y := by
  unfold cachedSet at h
  split at h
  · rename_i asks
    split at h
    · cases h
    · split at h
      · split at h
        · cases h
          exact .goto follows nofun
        · rename_i rdatas reads
          exact answer_told follows
            (addRecords_adds (valid asks) two fun parts mem n => decode_valid reads mem)
            (map_some_eq_ok h)
      · cases h
  · cases h

theorem cachedAddress_told {d : Name} {dtype type front : Bytes} {size : Nat} (two : type.length = 2)
    (bottom : w.z.level = 0 → Valid d)
    (h : cachedAddress env w d dtype type front size = .ok (some y)) : Told env held tells q links y := by
  unfold cachedAddress at h
  split at h
  · split at h
    · cases h
    · split at h
      · obtain ⟨ipv6, _, h⟩ := bind_eq_ok.mp h
        cases h
        exact .goto (follows.kept ⟨rfl, rfl, rfl, rfl, rfl⟩ rfl) nofun
      · split at h
        · split at h
          · obtain ⟨z, hz, h⟩ := bind_eq_ok.mp h
            obtain ⟨servers, rfl⟩ := deposits_eq_ok hz
            cases h
            exact .goto (follows.kept ⟨rfl, rfl, rfl, rfl, rfl⟩ rfl) nofun
          · rename_i level
            refine answer_told follows (addRecords_adds (bottom (not_not.mp level)) two ?_)
              (map_some_eq_ok h)
            intro parts mem n name
            obtain ⟨a, _, rfl⟩ := List.mem_map.mp mem
            cases List.mem_singleton.mp name
        · cases h
  · cases h

/-- Above level 0 only addresses are asked for, and no block but that of a type answers. -/
theorem cachedAnswer_told (keeps : env.store.Keeps held)
    (cached : ∀ {d data ttl}, env.store.get w.cache (cacheKey dnsTCname d) = some (data, ttl) →
      tells d ⟨readName data.length data, ttl⟩) {d : Name} {dtype : Bytes} (two : dtype.length = 2)
    (atWork : w.z.level = 0 → d = (trail q.name links).current)
    (above : w.z.level ≠ 0 → dtype = dnsTA ∨ dtype = dnsTAaaa)
    (h : cachedAnswer env w d dtype = .ok (some y)) : Told env held tells q links y := by
  have bottom : w.z.level = 0 → Valid d := by
    intro level
    rw [atWork level]
    exact (trail_valid follows.query.valid).1
  have valid : ∀ type, type ≠ dnsTA → type ≠ dnsTAaaa → typematch type dtype = true → Valid d := by
    intro type noA noAaaa asks
    by_cases level : w.z.level = 0
    · exact bottom level
    · rcases above level with rfl | rfl
      · rw [typematch_iff (by decide)] at asks
        exact absurd asks noA
      · rw [typematch_iff (by decide)] at asks
        exact absurd asks noAaaa
  unfold cachedAnswer at h
  split at h
  · cases h
  · split at h
    · cases h
      exact .goto follows nofun
    · split at h
      · rename_i data ttl live
        obtain ⟨call, isHeld, key, same⟩ := keeps.get live
        have target := (follows.cache call isHeld).target key
        rw [same] at target
        simp only [] at h
        split at h
        · obtain ⟨name, hget, h⟩ := bind_eq_ok.mp h
          obtain ⟨first, hderef, h⟩ := bind_eq_ok.mp h
          obtain ⟨_, rfl⟩ := Arr.get_eq_ok.mp hget
          cases follows.query.name.symm.trans (deref_eq_ok.mp hderef)
          exact answer_told follows
            (responseCname_adds (trail_valid follows.query.valid).1 target) (map_some_eq_ok h)
        · cases h
          refine ⟨follows.cache, follows, ?_⟩
          rintro _ _ ⟨⟩
          exact ⟨target, fun level => atWork level ▸ cached live⟩
      · obtain ⟨x, mem, hx⟩ := firstSome_mem h
        simp only [List.mem_cons, List.not_mem_nil, or_false] at mem
        rcases mem with rfl | rfl | rfl | rfl | rfl | rfl | rfl
        · exact cachedSet_told follows (by rfl) (valid _ (by decide) (by decide)) hx
        · exact cachedSet_told follows (by rfl) (valid _ (by decide) (by decide)) hx
        · exact cachedSet_told follows (by rfl) (valid _ (by decide) (by decide)) hx
        · exact cachedSet_told follows (by rfl) (valid _ (by decide) (by decide)) hx
        · exact cachedAddress_told follows (by rfl) bottom hx
        · exact cachedAddress_told follows (by rfl) bottom hx
        · split at hx
          · cases hx
          · rename_i other
            have noA : dtype ≠ dnsTA := fun same => other (same ▸ by decide)
            have noAaaa : dtype ≠ dnsTAaaa := fun same => other (same ▸ by decide)
            exact cachedSet_told follows two (valid dtype noA noAaaa) hx

theorem newname_told (keeps : env.store.Keeps held)
    (cached : ∀ {d data ttl}, env.store.get w.cache (cacheKey dnsTCname d) = some (data, ttl) →
      tells d ⟨readName data.length data, ttl⟩) (h : newname env w = .ok y) :
    Told env held tells q links y := by
  unfold newname at h
  simp only [] at h
  have onward : ({ w with z := { w.z with loop := w.z.loop + 1 } } : World σ).Follows env held q links :=
    follows.kept ⟨rfl, rfl, rfl, rfl, rfl⟩ rfl
  split at h
  · cases h
    exact .goto onward nofun
  · obtain ⟨name, hget, h⟩ := bind_eq_ok.mp h
    obtain ⟨d, hderef, h⟩ := bind_eq_ok.mp h
    obtain ⟨dtype, hdtype, h⟩ := bind_eq_ok.mp h
    obtain ⟨found, hfound, h⟩ := bind_eq_ok.mp h
    obtain ⟨_, rfl⟩ := Arr.get_eq_ok.mp hget
    have hd := deref_eq_ok.mp hderef
    have atWork : w.z.level = 0 → d = (trail q.name links).current := by
      intro level
      rw [level] at hd
      exact Option.some.inj (hd.symm.trans follows.query.name)
    have bottom : w.z.level = 0 → Valid d := by
      intro level
      rw [atWork level]
      exact (trail_valid follows.query.valid).1
    have typed : dtype.length = 2 ∧ (w.z.level ≠ 0 → dtype = dnsTA ∨ dtype = dnsTAaaa) := by
      unfold Z.dtype at hdtype
      split at hdtype
      · rename_i level
        cases hdtype
        exact ⟨follows.query.type.symm ▸ q.typeTwo, fun above => absurd level above⟩
      · obtain ⟨ipv6, _, hdtype⟩ := bind_eq_ok.mp hdtype
        cases ipv6
        · cases hdtype
          exact ⟨by rfl, fun _ => .inl rfl⟩
        · cases hdtype
          exact ⟨by rfl, fun _ => .inr rfl⟩
    cases found with
    | none => exact search_told onward h
    | some step =>
      cases h
      obtain ⟨x, mem, hx⟩ := firstSome_mem hfound
      simp only [List.mem_cons, List.not_mem_nil, or_false] at mem
      rcases mem with rfl | rfl
      · exact known_told onward bottom hx
      · exact cachedAnswer_told onward keeps cached typed.1 atWork typed.2 hx

end

/-! ### CNAME -/

/-- The CNAME that a label has followed: at level 0, as far as the query goes on with its target. -/
def Label.followed (z : Z) : Label → Next → List Link
  | .cname target ttl, .goto .newname => if z.level = 0 then [⟨target, ttl⟩] else []
  | _, _ => []

/-- The aliases are moved up, and the name at work becomes the first of them. -/
theorem Z.Follows.moved {conf : Conf} {z : Z} (follows : z.Follows conf q links) {target : Name}
    {ttl : Nat} (valid : Valid target) {aliases : Arr 16 (Option Name)} {aliasttl : Arr 16 Nat}
    (free : z.aliases.cell (conf.aliases - 1) = none)
    (cells : ∀ i, aliases.cell i = if 0 < i ∧ i ≤ conf.aliases - 1 then z.aliases.cell (i - 1)
      else z.aliases.cell i)
    (ttls : ∀ i, aliasttl.cell i = if 0 < i ∧ i ≤ conf.aliases - 1 then z.aliasttl.cell (i - 1)
      else z.aliasttl.cell i) :
    ({ z with
      aliases := ⟨Function.update aliases.cell 0 (z.name.cell 0)⟩
      aliasttl := ⟨Function.update aliasttl.cell 0 ttl⟩
      name := ⟨Function.update z.name.cell 0 (some target)⟩ } : Z).Follows conf q
        (links ++ [⟨target, ttl⟩]) := by
  have positive : 0 < conf.aliases := effective_pos (by omega)
  have more : links.length < conf.aliases := by
    by_contra full
    obtain ⟨c, _, _, hc, _⟩ := follows.entry (i := conf.aliases - 1) (by omega)
    rw [free] at hc
    cases hc
  constructor
  case few =>
    rw [List.length_append]
    exact more
  case name =>
    show Function.update z.name.cell 0 (some target) 0 = _
    rw [Function.update_self, trail_snoc]
    rfl
  case aliases =>
    intro i below
    show Function.update aliases.cell 0 (z.name.cell 0) i = _
    rw [trail_snoc]
    cases i with
    | zero =>
      rw [Function.update_self, follows.name]
      rfl
    | succ i =>
      rw [Function.update_of_ne (Nat.succ_ne_zero i), cells, if_pos (by omega)]
      exact follows.aliases i (by omega)
  case aliasttl =>
    intro i c ttl' h
    show Function.update aliasttl.cell 0 ttl i = _
    rw [trail_snoc] at h
    cases i with
    | zero =>
      rw [Function.update_self]
      exact (Prod.mk.inj (Option.some.inj h)).2
    | succ i =>
      have old : (trail q.name links).before[i]? = some (c, ttl') := h
      have inside : i < links.length := by
        rw [← trail_length q.name]
        exact (List.getElem?_eq_some_iff.mp old).1
      rw [Function.update_of_ne (Nat.succ_ne_zero i), ttls, if_pos (by omega)]
      exact follows.aliasttl i c ttl' old
  case valid =>
    intro link mem
    rcases List.mem_append.mp mem with mem | mem
    · exact follows.valid link mem
    · rw [List.mem_singleton.mp mem]
      exact valid
  case type => exact follows.type
  case cls => exact follows.cls

theorem toCname_told (follows : w.Follows env held q links) {target : Name} {ttl : Nat}
    (valid : Valid target) (h : toCname env target ttl w = .ok y) :
    Told env held tells q (links ++ (Label.cname target ttl).followed w.z y.2) y := by
  unfold toCname at h
  split at h
  · rename_i bottom
    obtain ⟨last, hlast, h⟩ := bind_eq_ok.mp h
    obtain ⟨room, rfl⟩ := Arr.get_eq_ok.mp hlast
    split at h
    · cases h
      show Told env held tells q (links ++ []) _
      rw [List.append_nil]
      exact .goto follows nofun
    · rename_i free
      obtain ⟨aliases, haliases, h⟩ := bind_eq_ok.mp h
      obtain ⟨aliasttl, haliasttl, h⟩ := bind_eq_ok.mp h
      obtain ⟨name, hname, h⟩ := bind_eq_ok.mp h
      obtain ⟨aliases', haliases', h⟩ := bind_eq_ok.mp h
      obtain ⟨aliasttl', haliasttl', h⟩ := bind_eq_ok.mp h
      obtain ⟨name', hname', h⟩ := bind_eq_ok.mp h
      obtain ⟨a, hshift, cells⟩ := shift_ok w.z.aliases (env.conf.aliases - 1) room
      cases Except.ok.inj (haliases.symm.trans hshift)
      obtain ⟨a, hshift, ttls⟩ := shift_ok w.z.aliasttl (env.conf.aliases - 1) room
      cases Except.ok.inj (haliasttl.symm.trans hshift)
      obtain ⟨_, rfl⟩ := Arr.get_eq_ok.mp hname
      obtain ⟨_, rfl⟩ := Arr.set_eq_ok.mp haliases'
      obtain ⟨_, rfl⟩ := Arr.set_eq_ok.mp haliasttl'
      obtain ⟨_, rfl⟩ := Arr.set_eq_ok.mp hname'
      cases h
      show Told env held tells q (links ++ if w.z.level = 0 then [⟨target, ttl⟩] else []) _
      rw [if_pos bottom]
      exact .goto ⟨follows.query.moved valid (Option.not_isSome_iff_eq_none.mp free) cells ttls,
        follows.cache⟩ nofun
  · rename_i above
    obtain ⟨name, hname, h⟩ := bind_eq_ok.mp h
    obtain ⟨_, rfl⟩ := Arr.set_eq_ok.mp hname
    cases h
    show Told env held tells q (links ++ if w.z.level = 0 then _ else _) _
    rw [if_neg above, List.append_nil]
    exact .goto (follows.kept ⟨Function.update_of_ne (Ne.symm above) .., rfl, rfl, rfl, rfl⟩ rfl) nofun

/-! ### HAVEPACKET -/

theorem puts_level (store : Store σ) (w : World σ) (calls : List CacheSet) :
    (w.puts store calls).z.level = w.z.level := by
  obtain ⟨cache, hputs⟩ := puts_eq store w calls
  rw [hputs]

theorem scanAnswers_cname {buf : Bytes} {d : Name} {dtype : Bytes} {n pos : Nat} {scan scan' : Scan}
    {pos' : Nat} (before : ∀ target ttl, scan.cname = some (target, ttl) → Valid target)
    (h : scanAnswers buf d dtype n pos scan = some (scan', pos')) :
    ∀ target ttl, scan'.cname = some (target, ttl) → Valid target := by
  induction n generalizing pos scan with
  | zero =>
    cases h
    exact before
  | succ n ih =>
    rw [scanAnswers] at h
    split at h
    · cases h
    · split at h
      · split at h
        · refine ih ?_ h
          exact before
        · split at h
          · split at h
            · cases h
            · rename_i hname
              refine ih ?_ h
              rintro _ _ ⟨⟩
              exact dnsPacketGetname_valid hname
          · exact ih before h
      · exact ih before h

/-- The target of a CNAME in a packet is a name. -/
theorem readPacket_cname {buf : Bytes} {d : Name} {dtype : Bytes} {x : Reading}
    (h : readPacket buf d dtype = some x) {target : Name} {ttl : Nat}
    (cname : x.scan.cname = some (target, ttl)) : Valid target := by
  unfold readPacket at h
  split at h
  · cases h
  · split at h
    · cases h
    · simp only [] at h
      split at h
      · cases h
      · split at h
        · cases h
        · rename_i hscan
          split at h
          · cases h
          · rename_i hscan'
            cases h
            have none : ∀ target ttl, ({} : Scan).cname = some (target, ttl) → Valid target := by
              rintro _ _ ⟨⟩
            exact scanAnswers_cname none hscan target ttl
              ((scanAuthority_cname hscan').symm.trans cname)

section

variable (keeps : env.store.Keeps held) (follows : w.Follows env held q links)
include keeps follows

theorem puts_follows {calls : List CacheSet} (written : ∀ call ∈ calls, Written env.conf call) :
    (w.puts env.store calls).Follows env held q links := by
  induction calls generalizing w with
  | nil => exact follows
  | cons call calls ih =>
    refine ih ⟨follows.query, ?_⟩ fun call' mem => written call' (List.mem_cons_of_mem _ mem)
    intro call' isHeld
    rcases keeps.set isHeld with before | rfl
    · exact follows.cache call' before
    · exact written call' List.mem_cons_self

omit keeps in
theorem refer_told {buf : Bytes} {d : Name} {x : Reading} (h : refer env w buf d x = .ok y) :
    Told env held tells q links y := by
  unfold refer at h
  split at h
  · cases h
    exact .goto follows nofun
  · split at h
    · cases h
      exact .goto follows nofun
    · obtain ⟨control, _, h⟩ := bind_eq_ok.mp h
      obtain ⟨servers, _, h⟩ := bind_eq_ok.mp h
      obtain ⟨z, hz, h⟩ := bind_eq_ok.mp h
      obtain ⟨ns, rfl⟩ := freeNs_eq_ok hz
      obtain ⟨z', hz', h⟩ := bind_eq_ok.mp h
      split at h
      · cases h
        exact .goto (follows.kept ⟨rfl, rfl, rfl, rfl, rfl⟩ rfl) nofun
      · obtain ⟨ns', rfl⟩ := referralLoop_eq_ok hz'
        cases h
        exact .goto (follows.kept ⟨rfl, rfl, rfl, rfl, rfl⟩ rfl) nofun

omit keeps in
theorem answered_told {buf : Bytes} {d : Name} {dtype : Bytes} {x : Reading}
    (h : answered env w buf d dtype x = .ok y) : Told env held tells q links y := by
  unfold answered at h
  split at h
  · obtain ⟨block, _, h⟩ := bind_eq_ok.mp h
    simp only [] at h
    obtain ⟨servers, _, h⟩ := bind_eq_ok.mp h
    cases h
    refine .goto (follows.kept ⟨rfl, rfl, rfl, rfl, rfl⟩ rfl) ?_
    intro target ttl
    split <;> nofun
  · exact answer_told follows (answerLoop_adds ..) h

theorem concluded_told {buf : Bytes} {d : Name} {dtype : Bytes} {x : Reading}
    (targets : ∀ target ttl, x.scan.cname = some (target, ttl) →
      Valid target ∧ (w.z.level = 0 → tells (trail q.name links).current ⟨target, ttl⟩))
    (h : concluded env w buf d dtype x = .ok y) : Told env held tells q links y := by
  have absent : ∀ {type : Bytes} {ttl : Nat}, ∀ call ∈ (cachegeneric type d [] ttl).toList,
      Written env.conf call := by
    intro type ttl call mem
    rw [Option.mem_toList] at mem
    exact .inl (cachegeneric_key mem).2
  unfold concluded at h
  split at h
  · rename_i target ttl cname
    cases h
    refine ⟨follows.cache, follows, ?_⟩
    rintro _ _ ⟨⟩
    exact targets _ _ cname
  · split at h
    · cases h
      exact .goto (puts_follows keeps follows absent) nofun
    · split at h
      · simp only [] at h
        have onward : (w.puts env.store (saveFinish dtype d (x.scan.soa.getD 0) saveStart).toList).Follows
            env held q links := puts_follows keeps follows absent
        split at h
        · obtain ⟨ipv6, _, h⟩ := bind_eq_ok.mp h
          cases h
          exact .goto (onward.kept ⟨rfl, rfl, rfl, rfl, rfl⟩ rfl) nofun
        · exact answered_told onward h
      · split at h
        · exact answered_told follows h
        · exact refer_told follows h

theorem havepacket_told {buf : Bytes} {curserver : Fin 16}
    (heard : ∀ {d dtype x target ttl}, readPacket buf d dtype = some x →
      x.scan.cname = some (target, ttl) → tells d ⟨target, ttl⟩)
    (h : havepacket env buf curserver w = .ok y) : Told env held tells q links y := by
  unfold havepacket at h
  simp only [] at h
  have onward : ({ w with z := { w.z with loop := w.z.loop + 1 } } : World σ).Follows env held q links :=
    follows.kept ⟨rfl, rfl, rfl, rfl, rfl⟩ rfl
  split at h
  · cases h
    exact .goto onward nofun
  · obtain ⟨_, _, h⟩ := bind_eq_ok.mp h
    obtain ⟨control, _, h⟩ := bind_eq_ok.mp h
    obtain ⟨name, hget, h⟩ := bind_eq_ok.mp h
    obtain ⟨d, hderef, h⟩ := bind_eq_ok.mp h
    obtain ⟨dtype, _, h⟩ := bind_eq_ok.mp h
    have atWork : w.z.level = 0 → d = (trail q.name links).current := by
      intro level
      have hd := deref_eq_ok.mp hderef
      rw [(Arr.get_eq_ok.mp hget).2] at hd
      replace hd : w.z.name.cell w.z.level = some d := hd
      rw [level] at hd
      exact Option.some.inj (hd.symm.trans follows.query.name)
    split at h
    · cases h
      exact .goto onward nofun
    · rename_i x hx
      split at h
      · obtain ⟨block, _, h⟩ := bind_eq_ok.mp h
        obtain ⟨servers, _, h⟩ := bind_eq_ok.mp h
        cases h
        exact .goto (onward.kept ⟨rfl, rfl, rfl, rfl, rfl⟩ rfl) nofun
      · have written : ∀ call ∈ filed (file env.conf buf control
            (x.numanswers + x.numauthority + x.numglue) x.posanswers x.posauthority),
            Written env.conf call := by
          intro call mem
          obtain ⟨ps, parsed, g, isSet, _, saved⟩ :=
            file_filed env.conf buf control x.posauthority call mem
          exact .inr ⟨buf, _, ps, g, readPacket_sections hx parsed, isSet, saved⟩
        split at h
        · rename_i calls hfile
          rw [hfile] at written
          cases h
          exact .goto (puts_follows keeps onward written) nofun
        · rename_i calls hfile
          rw [hfile] at written
          cases h
          exact .goto (puts_follows keeps onward written) nofun
        · rename_i calls hfile
          rw [hfile] at written
          refine concluded_told keeps (puts_follows keeps onward written) ?_ h
          intro target ttl cname
          refine ⟨readPacket_cname hx cname, fun level => ?_⟩
          have same := puts_level env.store { w with z := { w.z with loop := w.z.loop + 1 } } calls
          exact atWork (same.symm.trans level) ▸ heard hx cname

end

/-! ## Runs -/

/-- **One lemma for all labels**: a CNAME that is followed is one more, and nothing else tells of the
aliases. -/
theorem step_told (keeps : env.store.Keeps held)
    (cached : ∀ {d data ttl}, env.store.get w.cache (cacheKey dnsTCname d) = some (data, ttl) →
      tells d ⟨readName data.length data, ttl⟩) {label : Label}
    (told : Told env held tells q links (w, .goto label)) (h : step env label w = .ok y) :
    Told env held tells q (links ++ label.followed w.z y.2) y := by
  obtain ⟨_, follows, target⟩ := told
  have plain : label.followed w.z y.2 = [] → Told env held tells q links y →
      Told env held tells q (links ++ label.followed w.z y.2) y := by
    intro none behind
    rw [none, List.append_nil]
    exact behind
  cases label with
  | cname name ttl => exact toCname_told follows (target name ttl rfl).1 h
  | newname => exact plain rfl (newname_told follows keeps cached h)
  | havens => exact plain rfl (havens_told follows h)
  | lowerlevel => exact plain rfl (lowerlevel_told follows h)
  | servfail => exact plain rfl (giveUp_told follows servfail_adds h)
  | nxdomain => exact plain rfl (giveUp_told follows nxdomain_adds h)
  | die =>
    obtain ⟨z, _, h⟩ := bind_eq_ok.mp h
    cases h
    exact ⟨follows.cache, trivial⟩

/-- The CNAMEs that the labels of a run follow. -/
def followedBy (env : Env σ) : Nat → Step σ → List Link
  | rounds + 1, (w, .goto label) =>
    match step env label w with
    | .ok next => label.followed w.z next.2 ++ followedBy env rounds next
    | .error _ => []
  | _, _ => []

theorem followedBy_done (rounds : Nat) (w : World σ) (r : Result) :
    followedBy env rounds (w, .done r) = [] := by
  cases rounds <;> rfl

theorem followedBy_step {label : Label} (h : step env label w = .ok y) (rounds : Nat) :
    followedBy env (rounds + 1) (w, .goto label) =
      label.followed w.z y.2 ++ followedBy env rounds y := by
  rw [followedBy, h]

/-- The CNAMEs that a call of `doit` follows. -/
def followed (env : Env σ) (rounds : Nat) (w : World σ) (entry : Entrance) : List Link :=
  match entered env w entry with
  | .ok first => followedBy env rounds first
  | .error _ => []

/-- Each CNAME is one that `tells` of the name before it. -/
def Linked (tells : Name → Link → Prop) : Name → List Link → Prop
  | _, [] => True
  | d, link :: links => tells d link ∧ Linked tells link.target links

theorem Linked.mono {tells tells' : Name → Link → Prop} (le : ∀ d link, tells d link → tells' d link)
    {d : Name} {links : List Link} (linked : Linked tells d links) : Linked tells' d links := by
  induction links generalizing d with
  | nil => trivial
  | cons link links ih => exact ⟨le d link linked.1, ih linked.2⟩

/-- A chain goes on from the name it has led to. -/
theorem Linked.append {tells : Name → Link → Prop} {links more : List Link} {t : Trail}
    (linked : Linked tells t.current links)
    (onward : Linked tells (links.foldl Trail.follow t).current more) :
    Linked tells t.current (links ++ more) := by
  induction links generalizing t with
  | nil => exact onward
  | cons link links ih => exact ⟨linked.1, @ih (t.follow link) linked.2 onward⟩

/-- The name that a list of CNAMEs leads to. -/
theorem trail_current (dn : Name) (links : List Link) (link : Link) :
    (trail dn (links ++ [link])).current = link.target := by
  rw [trail_snoc]
  rfl

/-- The labels of a run, by induction on the rounds. -/
theorem run_told (keeps : env.store.Keeps held) {rounds : Nat} {x : Step σ}
    (cached : ∀ {d data ttl}, env.store.get x.1.cache (cacheKey dnsTCname d) = some (data, ttl) →
      tells d ⟨readName data.length data, ttl⟩) (told : Told env held tells q links x)
    {w' : World σ} {r : Result} (h : run env rounds x = .ok (some (w', r))) :
    Told env held tells q (links ++ followedBy env rounds x) (w', .done r) ∧
      Linked tells (trail q.name links).current (followedBy env rounds x) := by
  induction rounds generalizing x links with
  | zero =>
    obtain ⟨w, next⟩ := x
    cases next with
    | goto label => cases h
    | done r₁ =>
      cases h
      exact ⟨by rwa [followedBy_done, List.append_nil], trivial⟩
  | succ rounds ih =>
    obtain ⟨w, next⟩ := x
    cases next with
    | done r₁ =>
      cases h
      exact ⟨by rwa [followedBy_done, List.append_nil], trivial⟩
    | goto label =>
      obtain ⟨y, hstep, h⟩ := bind_eq_ok.mp h
      have same : y.1.cache = w.cache := (step_spares label y hstep).1
      obtain ⟨told', linked⟩ := ih (fun live => cached (same ▸ live)) (step_told keeps cached told hstep) h
      rw [followedBy_step hstep, ← List.append_assoc]
      refine ⟨told', ?_⟩
      -- a link is one that is told of the name at work, and what follows it of its target
      have one : label.followed w.z y.2 = [] ∨ ∃ link, label.followed w.z y.2 = [link] ∧
          tells (trail q.name links).current link := by
        unfold Label.followed
        split
        · rename_i target ttl _
          split
          · rename_i bottom
            exact .inr ⟨_, rfl, (told.2.2 target ttl rfl).2 bottom⟩
          · exact .inl rfl
        · exact .inl rfl
      rcases one with none | ⟨link, one, tell⟩
      · rw [none, List.append_nil] at linked
        rw [none]
        exact linked
      · rw [one, trail_current] at linked
        rw [one]
        exact ⟨tell, linked⟩

/-- What a call of `doit` has of a name's CNAME: the packet it is called with, or the cache as the
packet has left it. -/
inductive Tells (env : Env σ) (entry : Entrance) (cache : σ) (d : Name) : Link → Prop
  | packet {buf : Bytes} {curserver : Fin 16} {dtype : Bytes} {x : Reading} {target : Name} {ttl : Nat}
      (isPacket : entry = .packet buf curserver) (reads : readPacket buf d dtype = some x)
      (cname : x.scan.cname = some (target, ttl)) : Tells env entry cache d ⟨target, ttl⟩
  | cached {data : Bytes} {ttl : Nat}
      (live : env.store.get cache (cacheKey dnsTCname d) = some (data, ttl)) :
      Tells env entry cache d ⟨readName data.length data, ttl⟩

/-- A call of `doit`, whichever way it is entered. -/
theorem doit_told (keeps : env.store.Keeps held) (follows : w.Follows env held q links)
    {entry : Entrance} {rounds : Nat} {w' : World σ} {r : Result}
    (h : doit env rounds w entry = .ok (some (w', r))) :
    Told env held (Tells env entry w'.cache) q (links ++ followed env rounds w entry) (w', .done r) ∧
      Linked (Tells env entry w'.cache) (trail q.name links).current
        (followed env rounds w entry) := by
  obtain ⟨⟨w₁, next⟩, hentered, h⟩ := bind_eq_ok.mp h
  have same : w'.cache = w₁.cache := (run_spares rounds h).1
  have told : Told env held (Tells env entry w'.cache) q links (w₁, next) := by
    cases entry with
    | fresh =>
      cases hentered
      exact .goto follows nofun
    | packet buf curserver =>
      exact havepacket_told keeps follows (fun reads cname => .packet rfl reads cname) hentered
    | failed =>
      obtain ⟨_, _, h⟩ := bind_eq_ok.mp hentered
      obtain ⟨_, _, h⟩ := bind_eq_ok.mp h
      cases h
      exact .goto follows nofun
  unfold followed
  rw [hentered]
  exact run_told keeps (fun live => .cached (same ▸ live)) told h

end Labels

/-! ## The calls of a query -/

/-- The cache that a call finds keeps what it is given, and it has been given nothing but what
`doit` writes. -/
def Served {σ : Type} (env : Env σ) (w : World σ) : Prop :=
  ∃ held : σ → CacheSet → Prop, env.store.Keeps held ∧
    ∀ call, held w.cache call → Written env.conf call

/-- What the calls of `doit` so far have followed, as long as each of them has sent a packet; `tells`
is what they had of the CNAMEs of names. The environment, the cache and the response buffer are anew
those of the moment at every call. -/
inductive Followed (conf : Conf) (q : Asked) :
    (Name → Link → Prop) → List Link → Z → Entrance → Prop
  | start {z₀ z : Z} (started : queryStartZ conf q.name q.type q.cls z₀ = .ok z) :
      Followed conf q (fun _ _ => False) [] z .fresh
  | again {tells : Name → Link → Prop} {links : List Link} {z : Z} {entry entry' : Entrance}
      {σ : Type} {env : Env σ} {w w' : World σ} {rounds : Nat} {t : Transmit}
      (before : Followed conf q tells links z entry) (same : env.conf = conf) (query : w.z = z)
      (served : Served env w) (sent : doit env rounds w entry = .ok (some (w', .sent t)))
      (returns : entry' ≠ .fresh) :
      Followed conf q (fun d link => tells d link ∨ Tells env entry w'.cache d link)
        (links ++ followed env rounds w entry) w'.z entry'

theorem Z.Fresh.follows {conf : Conf} {q : Asked} {z : Z}
    (fresh : z.Fresh conf q.name q.type q.cls) : z.Follows conf q [] where
  few := Nat.zero_le _
  name := fresh.name
  aliases := fresh.aliases
  aliasttl _ _ _ h := nomatch h
  valid _ mem := absurd mem List.not_mem_nil
  type := fresh.type
  cls := fresh.cls

/-- **What the aliases are** in front of every call. -/
theorem Followed.follows {conf : Conf} {q : Asked} {tells : Name → Link → Prop} {links : List Link}
    {z : Z} {entry : Entrance} (h : Followed conf q tells links z entry) : z.Follows conf q links := by
  induction h with
  | @start z₀ z started =>
    have within : conf.Within := by
      by_contra past
      rw [queryStartZ_range past] at started
      cases started
    obtain ⟨z', hstart, fresh⟩ := queryStartZ_ok within q.name q.type q.cls z₀
    cases Except.ok.inj (started.symm.trans hstart)
    exact fresh.follows
  | again before same query served sent returns ih =>
    subst same query
    obtain ⟨held, keeps, written⟩ := served
    obtain ⟨told, _⟩ := doit_told keeps ⟨ih, written⟩ sent
    exact told.2.query

/-- What a call follows goes on from what the calls before it have followed. -/
theorem Linked.call {q : Asked} {tells : Name → Link → Prop} {links : List Link}
    (before : Linked tells q.name links) {σ : Type} {env : Env σ} {w w' : World σ} {rounds : Nat}
    {entry : Entrance} (now : Linked (Tells env entry w'.cache) (trail q.name links).current
      (followed env rounds w entry)) :
    Linked (fun d link => tells d link ∨ Tells env entry w'.cache d link) q.name
      (links ++ followed env rounds w entry) :=
  Linked.append (t := ⟨q.name, []⟩) (before.mono fun _ _ => .inl) (now.mono fun _ _ => .inr)

/-- **Where the links come from**: each of them from a call of the query. -/
theorem Followed.linked {conf : Conf} {q : Asked} {tells : Name → Link → Prop} {links : List Link}
    {z : Z} {entry : Entrance} (h : Followed conf q tells links z entry) :
    Linked tells q.name links := by
  induction h with
  | start started => trivial
  | again before same query served sent returns ih =>
    have follows := before.follows
    subst same query
    obtain ⟨held, keeps, written⟩ := served
    exact ih.call (doit_told keeps ⟨follows, written⟩ sent).2

/-- A call leaves the cache as the next one needs it, whichever query that is for. -/
theorem Followed.served {conf : Conf} {q : Asked} {tells : Name → Link → Prop} {links : List Link}
    {z : Z} {entry : Entrance} (before : Followed conf q tells links z entry) {σ : Type}
    {env : Env σ} {w w' : World σ} {rounds : Nat} {r : Result} (same : env.conf = conf) (query : w.z = z) (served : Served env w)
    (done : doit env rounds w entry = .ok (some (w', r))) : Served env w' := by
  have follows := before.follows
  subst same query
  obtain ⟨held, keeps, written⟩ := served
  exact ⟨held, keeps, (doit_told keeps ⟨follows, written⟩ done).1.1⟩

/-- **A reply reports the aliases**: the question as the client has put it, and behind it one CNAME
for each that was followed, from the name asked for to the name the query has come to, with the ttl
it was had with; that is 0 where the ttls are hidden. There are no more of them than the limit
allows, and each of them was in the packet of one of the query's calls, or in the cache. -/
theorem aliases_reported {conf : Conf} {q : Asked} {tells : Name → Link → Prop} {links : List Link}
    {z : Z} {entry : Entrance} (before : Followed conf q tells links z entry) {σ : Type}
    {env : Env σ} {w w' : World σ} {rounds : Nat} {r : Response} (same : env.conf = conf)
    (query : w.z = z) (served : Served env w)
    (answered : doit env rounds w entry = .ok (some (w', .answered r))) :
    (links ++ followed env rounds w entry).length ≤ conf.aliases ∧
      Linked (fun d link => tells d link ∨ Tells env entry w'.cache d link) q.name
        (links ++ followed env rounds w entry) ∧
      Reports conf.hidettl q (links ++ followed env rounds w entry) r.bytes := by
  have follows := before.follows
  have linked := before.linked
  subst same query
  obtain ⟨held, keeps, written⟩ := served
  obtain ⟨⟨_, few, reports⟩, now⟩ := doit_told keeps ⟨follows, written⟩ answered
  exact ⟨few, linked.call now, reports⟩

/-! ## Three records in one packet -/

/-- A cache that forgets nothing. -/
def journal : Store (List CacheSet) where
  get c key := (c.find? fun call => decide (call.key = key)).map fun call => (call.data, call.ttl)
  set c call := call :: c

theorem journal_keeps : journal.Keeps fun c call => call ∈ c where
  get h := by
    obtain ⟨call, found, same⟩ := Option.map_eq_some_iff.mp h
    have key := List.find?_some found
    exact ⟨call, List.mem_of_find?_eq_some found, of_decide_eq_true key, (Prod.mk.inj same).1⟩
  set h := (List.mem_cons.mp h).symm

def journalEnv (hidettl : Bool) : Env (List CacheSet) where
  conf := { oneRoot with hidettl := hidettl }
  store := journal
  draw _ := 0
  transmits := true

/-- The addresses of `a`. -/
def addressesOfA : Asked where
  name := [[97]]
  type := dnsTA
  cls := dnsCIn
  valid := by decide
  typeTwo := rfl
  clsTwo := rfl

/-- `a` is an alias of `b`, and `b` one of `c`, which has an address. -/
def twoAliases : Bytes :=
  [0, 0, 128, 0, 0, 1, 0, 3, 0, 0, 0, 0] ++ [1, 97, 0, 0, 1, 0, 1] ++
    [1, 97, 0, 0, 5, 0, 1, 0, 0, 0, 60, 0, 3, 1, 98, 0] ++
    [1, 98, 0, 0, 5, 0, 1, 0, 0, 0, 30, 0, 3, 1, 99, 0] ++
    [1, 99, 0, 0, 1, 0, 1, 0, 0, 0, 20, 0, 4, 10, 0, 0, 1]

def startedForA (hidettl : Bool) : World (List CacheSet) :=
  ⟨(queryStartZ (journalEnv hidettl).conf [[97]] dnsTA dnsCIn .blank).toOption.getD .blank, [], [],
    ⟨[], [], 0, 0⟩⟩

/-- Behind the first call, which asks the root server. -/
def waitingForA (hidettl : Bool) : World (List CacheSet) :=
  (sentTo (doit (journalEnv hidettl) 20 (startedForA hidettl) .fresh)).getD (startedForA hidettl)

/-- The reply behind a call that has answered. -/
def replyOf {σ : Type} : Except Fault (Option (World σ × Result)) → Option Bytes
  | .ok (some (_, .answered r)) => some r.bytes
  | _ => none

theorem replyOf_eq_some {σ : Type} {x : Except Fault (Option (World σ × Result))} {bytes : Bytes}
    (h : replyOf x = some bytes) : ∃ w r, x = .ok (some (w, .answered r)) ∧ r.bytes = bytes := by
  unfold replyOf at h
  split at h
  · rename_i w r
    exact ⟨w, r, rfl, Option.some.inj h⟩
  · cases h

/-- The first link is out of the packet, the second one out of the cache. -/
theorem followed_twoAliases (hidettl : Bool) :
    followed (journalEnv hidettl) 20 (waitingForA hidettl) (.packet twoAliases 0) =
      [⟨[[98]], 60⟩, ⟨[[99]], 30⟩] := by
  cases hidettl <;> decide +kernel

theorem served_forA (hidettl : Bool) : Served (journalEnv hidettl) (waitingForA hidettl) := by
  have empty : (waitingForA hidettl).cache = [] := by
    cases hidettl <;> decide +kernel
  refine ⟨_, journal_keeps, fun call mem => ?_⟩
  rw [empty] at mem
  exact absurd mem List.not_mem_nil

theorem followed_forA (hidettl : Bool) :
    ∃ tells, Followed (journalEnv hidettl).conf addressesOfA tells [] (waitingForA hidettl).z
      (.packet twoAliases 0) := by
  have within : (journalEnv hidettl).conf.Within :=
    ⟨oneRoot_within.levels, oneRoot_within.aliases, oneRoot_within.nss⟩
  obtain ⟨z, started, _⟩ := queryStartZ_ok within [[97]] dnsTA dnsCIn .blank
  have first : Followed (journalEnv hidettl).conf addressesOfA (fun _ _ => False) []
      (startedForA hidettl).z .fresh := by
    unfold startedForA
    rw [started]
    exact .start started
  have sent : (sentTo (doit (journalEnv hidettl) 20 (startedForA hidettl) .fresh)).isSome := by
    cases hidettl <;> decide +kernel
  obtain ⟨w, hw⟩ := Option.isSome_iff_exists.mp sent
  obtain ⟨t, hdoit⟩ := sentTo_eq_some hw
  have reached : waitingForA hidettl = w := by
    unfold waitingForA
    rw [hw]
    rfl
  have none : followed (journalEnv hidettl) 20 (startedForA hidettl) .fresh = [] := by
    cases hidettl <;> decide +kernel
  have served : Served (journalEnv hidettl) (startedForA hidettl) :=
    ⟨_, journal_keeps, fun call mem => absurd mem List.not_mem_nil⟩
  have second : Followed (journalEnv hidettl).conf addressesOfA _
      ([] ++ followed (journalEnv hidettl) 20 (startedForA hidettl) .fresh) w.z
      (.packet twoAliases 0) := .again first rfl rfl served hdoit nofun
  rw [none] at second
  rw [reached]
  exact ⟨_, second⟩

theorem aliases_reported_forA :
    ∃ r : Response,
      replyOf (doit (journalEnv false) 20 (waitingForA false) (.packet twoAliases 0)) =
        some r.bytes ∧
      Reports false addressesOfA [⟨[[98]], 60⟩, ⟨[[99]], 30⟩] r.bytes := by
  obtain ⟨tells, before⟩ := followed_forA false
  have replied : (replyOf (doit (journalEnv false) 20 (waitingForA false)
      (.packet twoAliases 0))).isSome := by decide +kernel
  obtain ⟨bytes, hbytes⟩ := Option.isSome_iff_exists.mp replied
  obtain ⟨w, r, hdoit, rfl⟩ := replyOf_eq_some hbytes
  obtain ⟨_, _, reports⟩ := aliases_reported before rfl rfl (served_forA false) hdoit
  rw [followed_twoAliases] at reports
  exact ⟨r, hbytes, reports⟩

/-- What is replied with the ttls hidden. -/
def hiddenReply : Bytes :=
  [0, 0, 129, 128, 0, 1, 0, 3, 0, 0, 0, 0] ++ [1, 97, 0, 0, 1, 0, 1] ++
    [192, 12, 0, 5, 0, 1, 0, 0, 0, 0, 0, 3, 1, 98, 0] ++
    [192, 31, 0, 5, 0, 1, 0, 0, 0, 0, 0, 3, 1, 99, 0] ++
    [192, 46, 0, 1, 0, 1, 0, 0, 0, 0, 0, 4, 10, 0, 0, 1]

/-- With the ttls hidden, the ttl of a CNAME is not the one it was had with. -/
theorem aliases_hidden :
    ¬ ∀ {conf : Conf} {q : Asked} {tells : Name → Link → Prop} {links : List Link} {z : Z}
      {entry : Entrance}, Followed conf q tells links z entry →
        ∀ {σ : Type} {env : Env σ} {w w' : World σ} {rounds : Nat} {r : Response}, env.conf = conf → w.z = z → Served env w →
        doit env rounds w entry = .ok (some (w', .answered r)) →
        Reports false q (links ++ followed env rounds w entry) r.bytes := by
  intro all
  obtain ⟨tells, before⟩ := followed_forA true
  have replied : replyOf (doit (journalEnv true) 20 (waitingForA true) (.packet twoAliases 0)) =
      some hiddenReply := by decide +kernel
  obtain ⟨w, r, hdoit, bytes⟩ := replyOf_eq_some replied
  obtain ⟨_, rest, message⟩ := all before rfl rfl (served_forA true) hdoit
  rw [followed_twoAliases, bytes] at message
  obtain ⟨p, question, ⟨_, ⟨p', owner, _, _, _, _, fixed, _⟩, _⟩⟩ := message.body
  obtain ⟨_, readQuestion, _⟩ := question.getname
  have behindQuestion : dnsPacketGetname hiddenReply 12 = some ([[97]], 15) := by decide +kernel
  cases readQuestion.symm.trans behindQuestion
  obtain ⟨_, readOwner, _⟩ := owner.getname
  have behindOwner : dnsPacketGetname hiddenReply 19 = some ([[97]], 21) := by decide +kernel
  cases readOwner.symm.trans behindOwner
  -- the last octet of the ttl
  have shown : memory hiddenReply 28 = some 60 := fixed 7 60 rfl
  have hidden : memory hiddenReply 28 = some 0 := by decide +kernel
  cases shown.symm.trans hidden

end TinyDnssec.Dnscache
