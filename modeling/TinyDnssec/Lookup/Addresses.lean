import TinyDnssec.Lookup.Selection
import TinyDnssec.Lookup.Referral

/-!
# How many addresses are sent

The addresses of a node go through a pool of eight, from which the answer is taken at its end. A
client without DNSSEC is sent at most eight of them, drawn at random. For a client with DNSSEC the
first eight are kept in the pool whatever is drawn, and the others are written at once, so the set
that is signed is complete.

`Answered` follows the aliases of a name from zone to zone and says which node answers at each.

That the draw is a fair one is not said: the words of `dns_random` are given.
-/

namespace TinyDnssec.Lookup

open Octets Loop

variable {env : Env}

/-- The two kinds of addresses. -/
inductive Version where
  | four
  | six
deriving DecidableEq

namespace Version

def type : Version → Bytes
  | four => dnsTA
  | six => dnsTAaaa

def len : Version → Nat
  | four => 4
  | six => 16

def pool : Version → Answer → Pool
  | four, a => a.pool
  | six, a => a.pool6

/-- The query asks for addresses of this kind. -/
def Asked (v : Version) (qtype : Bytes) : Prop := qtype = v.type ∨ qtype = dnsTAny

def holds (v : Version) (f : Found) : Bool := isAddress v.type v.len f

/-- The address in a record of a reply. -/
def addressOf (v : Version) (e : Entry) : Option Bytes :=
  if e.type = v.type then
    match e.rdata with
    | [.octets ip] => if ip.length = v.len then some ip else none
    | _ => none
  else none

end Version

/-- The addresses stored in some records. -/
def stored (v : Version) (fs : List Found) : List Bytes := (fs.filter v.holds).map Found.rdata

/-- **The answer has the addresses of some records**: at most eight different ones of them without
DNSSEC, every one with it. -/
def Addresses (env : Env) (v : Version) (fs : List Found) (es : List Entry) : Prop :=
  (env.doDnssec = false → (es.filterMap v.addressOf).Subperm (stored v fs) ∧
      (es.filterMap v.addressOf).length = min (stored v fs).length 8) ∧
    (env.doDnssec = true → (es.filterMap v.addressOf).Perm (stored v fs))

/-! ## One record -/

/-- What the loop does with a record, as far as addresses go. -/
inductive Handled (env : Env) (q : Name) (qtype : Bytes) (f : Found) (s s' : Response × Answer) : Prop
  | silent (response : s'.1 = s.1) (pools : ∀ v : Version, v.pool s'.2 = v.pool s.2)
      (other : ∀ v : Version, v.Asked qtype → v.holds f = false)
  | placed (v : Version) (address : v.holds f = true)
      (room : env.doDnssec = false ∨ (v.pool s.2).addrnum < 8) (i : Nat)
      (drawn : i ≤ (v.pool s.2).addrnum) (response : s'.1 = s.1)
      (pool : v.pool s'.2 = (v.pool s.2).place i f.rdata f.ttl)
      (others : ∀ w, w ≠ v → w.pool s'.2 = w.pool s.2)
  | emitted (e : Entry) (entry : entryOf q (answerShape f) f = some e)
      (emits : Emits .answer [e] s.1 s'.1) (pools : ∀ v : Version, v.pool s'.2 = v.pool s.2)
      (full : ∀ v : Version, v.holds f = true → env.doDnssec = true ∧ 8 ≤ (v.pool s.2).addrnum)

theorem holds_type {v : Version} {f : Found} (h : v.holds f = true) : f.type = v.type :=
  (isAddress_iff.mp h).1

theorem wanted_of_holds {v : Version} {qtype : Bytes} (asked : v.Asked qtype) {f : Found}
    (h : v.holds f = true) : env.wanted qtype f = true := by
  have htype := holds_type h
  have hasked : (decide (f.type = qtype) || decide (qtype = dnsTAny)) = true := by
    rw [Bool.or_eq_true, decide_eq_true_iff, decide_eq_true_iff, htype]
    exact asked.imp Eq.symm id
  have hplain : f.type ≠ dnsTHashref ∧ f.type ≠ dnsTHashlist ∧ f.type ≠ dnsTRrsig := by
    rw [htype]
    cases v <;> decide
  unfold Env.wanted
  rw [hasked, decide_eq_false hplain.1, decide_eq_false hplain.2.1, decide_eq_false hplain.2.2]
  simp only [Bool.true_or, Bool.or_self, Bool.not_false, Bool.and_true, Bool.and_false,
    Bool.false_and]

theorem answerStep_handled {q : Name} (valid : Valid q) {qtype : Bytes} {f : Found}
    (two : f.type.length = 2) {s s' : Response × Answer} (h : env.answerStep q qtype f s = .ok s') :
    Handled env q qtype f s s' := by
  unfold Env.answerStep at h
  split at h
  · rename_i hsoa
    cases h
    refine .silent rfl (fun v => by cases v <;> rfl) fun v _ => ?_
    rw [← Bool.not_eq_true]
    intro hv
    have htype := (holds_type hv).symm.trans hsoa.2
    revert htype
    cases v <;> decide
  · obtain ⟨⟨r, a⟩, hnote, h⟩ := bind_eq_ok.mp h
    obtain ⟨hr, ha, _⟩ := noteHashref_spec hnote
    have hr : r = s.1 := hr
    have ha : a = { s.2 with flagfound := true, nsec3 := a.nsec3 } := ha
    have hpool (v : Version) : v.pool a = v.pool s.2 := by
      rw [ha]
      cases v <;> rfl
    subst hr
    simp only [] at h
    split at h
    · rename_i hskip
      cases h
      refine .silent rfl hpool fun v hv => ?_
      rw [← Bool.not_eq_true]
      intro hf
      rw [wanted_of_holds hv hf] at hskip
      cases hskip
    · split at h
      · rename_i hA
        cases h
        refine .placed .four (isAddress_iff.mpr ⟨hA.1, hA.2.1⟩) ?_
          (env.dnsRandom a.draws a.pool.addrnum) ?_ rfl ?_ fun w hw => ?_
        · rw [← hpool]
          exact hA.2.2.imp_left (fun hp => by rwa [Bool.not_eq_true'] at hp)
        · rw [← hpool]
          exact dnsRandom_le _ _ _
        · rw [← hpool]
          rfl
        · rw [← hpool]
          cases w with
          | four => exact absurd rfl hw
          | six => rfl
      · rename_i hA
        split at h
        · rename_i hAaaa
          cases h
          refine .placed .six (isAddress_iff.mpr ⟨hAaaa.1, hAaaa.2.1⟩) ?_
            (env.dnsRandom a.draws a.pool6.addrnum) ?_ rfl ?_ fun w hw => ?_
          · rw [← hpool]
            exact hAaaa.2.2.imp_left (fun hp => by rwa [Bool.not_eq_true'] at hp)
          · rw [← hpool]
            exact dnsRandom_le _ _ _
          · rw [← hpool]
            rfl
          · rw [← hpool]
            cases w with
            | four => rfl
            | six => exact absurd rfl hw
        · rename_i hAaaa
          obtain ⟨r₁, hemit, h⟩ := bind_eq_ok.mp h
          cases h
          obtain ⟨e, he, hemits⟩ := emit_emits valid two hemit
          refine .emitted e he hemits (fun v => (hpool v).symm ▸ by cases v <;> rfl) fun v hv => ?_
          have hfull {n : Nat} (h : ¬((!env.doDnssec) = true ∨ n < 8)) :
              env.doDnssec = true ∧ 8 ≤ n := by
            rw [not_or, Bool.not_eq_true', Bool.not_eq_false] at h
            exact ⟨h.1, Nat.not_lt.mp h.2⟩
          obtain ⟨htype, hlen⟩ := isAddress_iff.mp hv
          rw [← hpool]
          cases v with
          | four => exact hfull fun hp => hA ⟨htype, hlen, hp⟩
          | six => exact hfull fun hp => hAaaa ⟨htype, hlen, hp⟩

/-! ## The loop -/

/-- What the pool of one kind and the answer have of the addresses of some records. -/
structure Gathered (env : Env) (v : Version) (pool : Pool) (es : List Entry) (fs : List Found) :
    Prop where
  slots : pool.addr.length = 8
  plain : env.doDnssec = false → pool.Holds (fs.filter v.holds) ∧ es.filterMap v.addressOf = []
  signed : env.doDnssec = true → pool.addrnum = min (stored v fs).length 8 ∧
    (pool.kept ++ es.filterMap v.addressOf).Perm (stored v fs)

theorem stored_snoc (v : Version) (fs : List Found) (f : Found) :
    stored v (fs ++ [f]) = stored v fs ++ if v.holds f then [f.rdata] else [] := by
  unfold stored
  rw [filter_snoc, List.map_append]
  split <;> rfl

theorem Gathered.start (env : Env) (v : Version) : Gathered env v .empty [] [] where
  slots := rfl
  plain := fun _ => ⟨Pool.holds_empty, rfl⟩
  signed := fun _ => ⟨rfl, .refl _⟩

/-- A record that is no address of this kind. -/
theorem Gathered.other {v : Version} {pool : Pool} {es es' : List Entry} {fs : List Found} {f : Found}
    (h : Gathered env v pool es fs) (other : v.holds f = false)
    (same : es'.filterMap v.addressOf = es.filterMap v.addressOf) :
    Gathered env v pool es' (fs ++ [f]) := by
  have hstored : stored v (fs ++ [f]) = stored v fs := by
    rw [stored_snoc, other, if_neg Bool.false_ne_true, List.append_nil]
  refine ⟨h.slots, fun hplain => ?_, fun hsigned => ?_⟩
  · rw [filter_snoc, other, if_neg Bool.false_ne_true, List.append_nil, same]
    exact h.plain hplain
  · rw [hstored, same]
    exact h.signed hsigned

/-- An address that goes through the pool. -/
theorem Gathered.place {v : Version} {pool : Pool} {es : List Entry} {fs : List Found} {f : Found}
    (h : Gathered env v pool es fs) (address : v.holds f = true)
    (room : env.doDnssec = false ∨ pool.addrnum < 8) {i : Nat} (drawn : i ≤ pool.addrnum) :
    Gathered env v (pool.place i f.rdata f.ttl) es (fs ++ [f]) := by
  refine ⟨Pool.place_slots h.slots i f.rdata f.ttl, fun hplain => ?_, fun hsigned => ?_⟩
  · obtain ⟨hpool, hnone⟩ := h.plain hplain
    rw [filter_snoc, if_pos address]
    exact ⟨hpool.place drawn f, hnone⟩
  · have hfew : pool.addrnum < 8 := room.resolve_left fun hplain => by
      rw [hsigned] at hplain
      cases hplain
    obtain ⟨hnum, hperm⟩ := h.signed hsigned
    rw [stored_snoc, if_pos address]
    constructor
    · show (if pool.addrnum < 1000000 then pool.addrnum + 1 else pool.addrnum) = _
      rw [List.length_append, List.length_singleton]
      split <;> omega
    · calc ((pool.place i f.rdata f.ttl).kept ++ es.filterMap v.addressOf).Perm
            (pool.kept ++ [f.rdata] ++ es.filterMap v.addressOf) :=
          (Pool.kept_few h.slots drawn hfew f.rdata f.ttl).append_right _
        _ |>.Perm (pool.kept ++ es.filterMap v.addressOf ++ [f.rdata]) := by
          rw [List.append_assoc, List.append_assoc]
          exact List.Perm.append_left _ List.perm_append_comm
        _ |>.Perm (stored v fs ++ [f.rdata]) := hperm.append_right _

/-- The record of an address is the address. -/
theorem addressOf_entry {v : Version} {q : Name} {f : Found} {e : Entry}
    (h : entryOf q (answerShape f) f = some e) :
    v.addressOf e = if v.holds f then some f.rdata else none := by
  obtain ⟨parts, hparts, rfl⟩ := Option.map_eq_some_iff.mp h
  unfold Version.addressOf Version.holds
  by_cases htype : f.type = v.type
  · have hshape : answerShape f = [.rest] := by
      unfold answerShape
      have hplain : ¬(f.type = dnsTNs ∨ f.type = dnsTCname ∨ f.type = dnsTPtr) ∧ f.type ≠ dnsTMx ∧
          f.type ≠ dnsTSoa ∧ f.type ≠ dnsTRrsig := by
        rw [htype]
        cases v <;> decide
      rw [if_neg hplain.1, if_neg hplain.2.1, if_neg hplain.2.2.1,
        if_neg fun hrrsig => hplain.2.2.2 hrrsig.1]
    rw [hshape] at hparts
    have hparts : parts = [.octets f.rdata] := (Option.some_inj.mp hparts).symm
    rw [if_pos htype, hparts]
    refine if_congr ?_ rfl rfl
    unfold isAddress
    rw [decide_eq_true htype, Bool.true_and, decide_eq_true_iff]
  · rw [if_neg htype, if_neg]
    unfold isAddress
    rw [decide_eq_false htype, Bool.false_and]
    exact Bool.false_ne_true

/-- An address that is written at once. -/
theorem Gathered.direct {v : Version} {pool : Pool} {es : List Entry} {fs : List Found} {f : Found}
    (h : Gathered env v pool es fs) {q : Name} {e : Entry}
    (entry : entryOf q (answerShape f) f = some e)
    (full : v.holds f = true → env.doDnssec = true ∧ 8 ≤ pool.addrnum) :
    Gathered env v pool (es ++ [e]) (fs ++ [f]) := by
  have haddress := @addressOf_entry v _ _ _ entry
  cases hf : v.holds f with
  | false =>
    rw [hf, if_neg Bool.false_ne_true] at haddress
    refine h.other hf ?_
    rw [List.filterMap_append, List.filterMap_cons_none haddress, List.filterMap_nil,
      List.append_nil]
  | true =>
    rw [hf, if_pos rfl] at haddress
    obtain ⟨hsigned, hfull⟩ := full hf
    refine ⟨h.slots, fun hplain => ?_, fun _ => ?_⟩
    · rw [hsigned] at hplain
      cases hplain
    · obtain ⟨hnum, hperm⟩ := h.signed hsigned
      rw [stored_snoc, if_pos hf, List.filterMap_append, List.filterMap_cons_some haddress,
        List.filterMap_nil, ← List.append_assoc, List.length_append]
      exact ⟨by omega, hperm.append_right _⟩

/-- What the loop has done with the addresses that are asked for. -/
def Loops (env : Env) (qtype : Bytes) (s : Response × Answer) (fs : List Found)
    (t : Response × Answer) : Prop :=
  ∃ es, Emits .answer es s.1 t.1 ∧
    ∀ v : Version, v.Asked qtype → Gathered env v (v.pool t.2) es fs

theorem Loops.turn {q : Name} {qtype : Bytes} {fs : List Found} {f : Found}
    {s t t' : Response × Answer} (h : Loops env qtype s fs t) (handled : Handled env q qtype f t t') :
    Loops env qtype s (fs ++ [f]) t' := by
  obtain ⟨es, hemits, hgathered⟩ := h
  cases handled with
  | silent response pools other =>
    refine ⟨es, by rw [response]; exact hemits, fun v hv => ?_⟩
    rw [pools]
    exact (hgathered v hv).other (other v hv) rfl
  | placed v address room i drawn response pool others =>
    refine ⟨es, by rw [response]; exact hemits, fun w hw => ?_⟩
    by_cases heq : w = v
    · rw [heq] at hw ⊢
      rw [pool]
      exact (hgathered v hw).place address room drawn
    · rw [others w heq]
      refine (hgathered w hw).other ?_ rfl
      rw [← Bool.not_eq_true]
      intro hboth
      have htype := (holds_type hboth).symm.trans (holds_type address)
      revert htype heq
      cases w <;> cases v <;> decide
  | emitted e entry emits pools full =>
    refine ⟨es ++ [e], hemits.trans emits, fun v hv => ?_⟩
    rw [pools]
    exact (hgathered v hv).direct entry (full v)

/-! ## A node -/

/-- The addresses of a pool, in the records they are sent in. -/
theorem filterMap_pool (v w : Version) (q : Name) (ttl : Nat) {ips : List Bytes}
    (sized : v.type = w.type → ∀ ip ∈ ips, ip.length = v.len) :
    (ips.map fun ip => (⟨q, w.type, dnsCIn, ttl, [.octets ip]⟩ : Entry)).filterMap v.addressOf =
      if w = v then ips else [] := by
  rw [List.filterMap_map]
  by_cases hw : w = v
  · subst hw
    rw [if_pos rfl]
    refine (List.filterMap_congr fun ip hip => ?_).trans List.filterMap_some
    show (if w.type = w.type then if ip.length = w.len then some ip else none else none) = some ip
    rw [if_pos rfl, if_pos (sized rfl ip hip)]
  · rw [if_neg hw]
    refine List.filterMap_eq_nil_iff.mpr fun ip _ => if_neg ?_
    show w.type ≠ v.type
    revert hw
    cases w <;> cases v <;> decide

theorem mem_stored_length {v : Version} {fs : List Found} {ip : Bytes} (h : ip ∈ stored v fs) :
    ip.length = v.len := by
  obtain ⟨f, hf, rfl⟩ := List.mem_map.mp h
  have haddress : isAddress v.type v.len f = true := (List.mem_filter.mp hf).2
  unfold isAddress at haddress
  rw [Bool.and_eq_true, decide_eq_true_iff, decide_eq_true_iff] at haddress
  exact haddress.2

theorem Gathered.sized {v : Version} {pool : Pool} {es : List Entry} {fs : List Found}
    (h : Gathered env v pool es fs) : ∀ ip ∈ pool.kept, ip.length = v.len := by
  intro ip hip
  refine @mem_stored_length v fs ip ?_
  cases hdns : env.doDnssec with
  | false => exact (h.plain hdns).1.kept.subset hip
  | true => exact (h.signed hdns).2.subset (List.mem_append_left _ hip)

/-- The pool at the end of a node and what was written before are the addresses of the node. -/
theorem Gathered.addresses {v : Version} {pool : Pool} {es es' : List Entry} {fs : List Found}
    (h : Gathered env v pool es fs)
    (sent : (es'.filterMap v.addressOf).Perm (pool.kept ++ es.filterMap v.addressOf)) :
    Addresses env v fs es' := by
  refine ⟨fun hplain => ?_, fun hsigned => sent.trans (h.signed hsigned).2⟩
  obtain ⟨hpool, hnone⟩ := h.plain hplain
  rw [hnone, List.append_nil] at sent
  refine ⟨sent.subperm.trans hpool.kept, ?_⟩
  rw [sent.length_eq, hpool.kept_length]
  unfold stored
  rw [List.length_map]

/-- **The addresses of a node** are in its answer. -/
theorem answerNode_addresses {q : Name} (valid : Valid q) {qtype : Bytes} {wild : Name}
    (labels : ∀ l ∈ wild, ValidLabel l) {s s' : Response × Answer}
    (h : env.answerNode q qtype wild s = .ok s') :
    ∃ es, Emits .answer es s.1 s'.1 ∧
      ∀ v : Version, v.Asked qtype → Addresses env v (env.visible wild (decide (wild ≠ q))) es := by
  unfold Env.answerNode at h
  obtain ⟨⟨r, a⟩, hloop, h⟩ := bind_eq_ok.mp h
  obtain ⟨r₁, hpool, h⟩ := bind_eq_ok.mp h
  obtain ⟨r₂, hpool6, h⟩ := bind_eq_ok.mp h
  cases h
  obtain ⟨fs, hfs, es, hemits, hgathered⟩ := each_run
    (P := fun done t => Loops env qtype (atNode s) done t)
    ⟨[], .refl _ _, fun v _ => by cases v <;> exact Gathered.start env _⟩
    (fun done f t t' hmem hdone hstep =>
      hdone.turn (answerStep_handled valid (found_read labels hmem).typeOctets hstep)) hloop
  rw [visible_eq hfs]
  refine ⟨_, (hemits.trans (addPool_spec valid rfl hpool)).trans (addPool_spec valid rfl hpool6),
    fun v hv => (hgathered v hv).addresses ?_⟩
  rw [List.filterMap_append, List.filterMap_append]
  cases v with
  | four =>
    have hsized : ∀ ip ∈ a.pool.kept, ip.length = Version.four.len := (hgathered .four hv).sized
    have hown := (filterMap_pool .four .four q a.pool.addrttl fun _ => hsized).trans (if_pos rfl)
    have hother := (@filterMap_pool .four .six q a.pool6.addrttl a.pool6.kept
      fun htype => absurd htype (by decide)).trans (if_neg fun heq => by cases heq)
    refine .trans (List.Perm.of_eq (congrArg₂ _ (congrArg₂ _ rfl hown) hother)) ?_
    rw [List.append_nil]
    exact List.perm_append_comm
  | six =>
    have hsized : ∀ ip ∈ a.pool6.kept, ip.length = Version.six.len := (hgathered .six hv).sized
    have hown := (filterMap_pool .six .six q a.pool6.addrttl fun _ => hsized).trans (if_pos rfl)
    have hother := (@filterMap_pool .six .four q a.pool.addrttl a.pool.kept
      fun htype => absurd htype (by decide)).trans (if_neg fun heq => by cases heq)
    refine .trans (List.Perm.of_eq (congrArg₂ _ (congrArg₂ _ rfl hother) hown)) ?_
    rw [List.append_nil]
    exact List.perm_append_comm

/-! ## Aliases -/

/-- The answer has the addresses of the node that answers; where there is none, it has no record. -/
structure Complete (env : Env) (qtype : Bytes) (q control : Name) (es : List Entry) : Prop where
  addresses : ∀ a, env.Selected q control a → ∀ v : Version, v.Asked qtype →
    Addresses env v (env.visible a (decide (a ≠ q))) es
  nothing : (∀ a, ¬env.Selected q control a) → es = []

/-- The alias of a name: that of the node it is answered from. -/
def Alias (env : Env) (qtype : Bytes) (q control : Name) (target : Option Name) : Prop :=
  ∀ a, env.Selected q control a →
    lastFollowed qtype (env.visible a (decide (a ≠ q))) = target

/-- **What a name is answered with**: nothing outside the zones of this server; otherwise the answer
of its node and, where that has an alias that is followed, the answer of the target. -/
inductive Answered (env : Env) (qtype : Bytes) : Name → List Entry → Prop
  | elsewhere {q : Name} (away : ∀ c, env.Nearest q c → ¬env.Shows c dnsTSoa) :
      Answered env qtype q []
  | node {q control : Name} {es : List Entry} (zone : env.Nearest q control)
      (home : env.Shows control dnsTSoa) (complete : Complete env qtype q control es)
      (ends : Alias env qtype q control none) : Answered env qtype q es
  | alias {q control target : Name} {es es' : List Entry} (zone : env.Nearest q control)
      (home : env.Shows control dnsTSoa) (complete : Complete env qtype q control es)
      (node : ∃ a, env.Selected q control a) (follows : Alias env qtype q control (some target))
      (rest : Answered env qtype target es') : Answered env qtype q (es ++ es')

theorem zone_none {q : Name} (h : env.zone q = some none) (c : Name) : ¬env.Nearest q c := by
  intro hc
  have hservers {b : Name} {fs : List Found} (hfs : complete (env.find b false) = some fs)
      (hno : ¬(fs.any fun f => decide (f.type = dnsTNs)) = true) : ¬env.Shows b dnsTNs := by
    unfold Env.Shows
    rw [visible_eq (complete_eq_some.mp hfs)]
    exact mt any_type_iff.mpr hno
  induction q with
  | nil =>
    unfold Env.zone at h
    split at h
    · cases h
    · rename_i fs hfs
      simp only [] at h
      split at h
      · cases h
      · rename_i hno
        have hnil : c = [] := List.suffix_nil.mp hc.above
        exact hservers hfs hno (hnil ▸ hc.servers)
  | cons l up ih =>
    unfold Env.zone at h
    split at h
    · cases h
    · rename_i fs hfs
      simp only [] at h
      split at h
      · cases h
      · rename_i hno
        rcases List.suffix_cons_iff.mp hc.above with heq | habove
        · exact hservers hfs hno (heq ▸ hc.servers)
        · exact ih h ⟨habove, hc.servers, fun b hb => hc.nearest b (hb.trans (List.suffix_cons l up))⟩

/-! ## The reply -/

/-- The octets begin with a question and an answer section of these records, however they end. -/
def AnswerIs (buf : Bytes) (question : Name) (answer : List Entry) : Prop :=
  Holds (memory buf) 6 (be16 answer.length) ∧
    ∃ p stop, NameAt (memory buf) 12 question p ∧ EntriesAt (memory buf) (p + 4) answer stop

theorem entriesAt_front {m : Memory} {pos stop : Nat} {es fs : List Entry}
    (h : EntriesAt m pos (es ++ fs) stop) : ∃ p, EntriesAt m pos es p := by
  induction es generalizing pos with
  | nil => exact ⟨pos, rfl⟩
  | cons e es ih =>
    obtain ⟨p, he, hrest⟩ := h
    obtain ⟨p', hp'⟩ := ih hrest
    exact ⟨p', p, he, hp'⟩

theorem answerIs_of_says {buf : Bytes} {question : Name} {log : Log} (h : Says buf question log) :
    AnswerIs buf question log.answer := by
  obtain ⟨p, hname, hentries⟩ := h.body
  unfold Log.all at hentries
  rw [List.append_assoc] at hentries
  obtain ⟨stop, hstop⟩ := entriesAt_front hentries
  have hcounts := h.counts
  unfold Counts at hcounts
  rw [List.append_assoc] at hcounts
  exact ⟨(holds_append.mp hcounts).1, p, stop, hname, hstop⟩

theorem answerIs_of_begins {buf : Bytes} {question : Name} {log : Log} (h : Begins buf question log) :
    AnswerIs buf question log.answer := by
  obtain ⟨p, _, hname, _, hentries⟩ := h.body
  obtain ⟨stop, hstop⟩ := entriesAt_front hentries
  exact ⟨(holds_append.mp h.counts).1, p, stop, hname, hstop⟩

/-- **The NS records of a child zone**, and what an attempt at a proof leaves behind them. -/
theorem servers_keeps {c : Name} (valid : Valid c) {r r' : Response}
    (h : env.servers false c r = .ok r') : ∃ r₁, EmitsSome .authority r r₁ ∧ Keeps r₁ r' := by
  cases hdns : env.doDnssec with
  | false => exact ⟨r', servers_some valid (.inl hdns) h, .refl r'⟩
  | true =>
    unfold Env.servers at h
    split at h
    · obtain ⟨s, hloop, h⟩ := bind_eq_ok.mp h
      have hsome : EmitsSome .authority r s.1 := each_some (fun f t t' hmem hstep =>
        nsStep_some valid (found_read valid.labels hmem).typeOctets hstep) hloop
      simp only [] at h
      split at h
      · have hleaves := @addNSEC3_leaves env _ valid.labels s.1
        obtain ⟨es, r₂, hemits, _, hkeeps⟩ : ∃ es r₂, Emits .authority es s.1 r₂ ∧
            (∀ e ∈ es, e.owner = c) ∧ Keeps r₂ r' := by
          split at h
          · rename_i hadd
            cases h
            exact hleaves.ok hadd
          · rename_i hadd
            cases h
            exact hleaves.error hadd
        exact ⟨r₂, hsome.trans ⟨es, hemits⟩, hkeeps⟩
      · cases h
        exact ⟨_, hsome, .refl _⟩
    · cases h
      exact ⟨_, .refl _ _, .refl _⟩

/-- What is added from the label AUTHORITY on leaves the answer section as it is. -/
theorem close_answerIs {q : Name} {z : Zone} (valid : Valid z.control) {a : Answer}
    (target : env.doDnssec = true → ∀ n, a.nsec3 = some n → Valid n) {wild : Name} {anpos : Nat}
    {r r' : Response} {question : Name} {log : Log} (idle : Idle r question log)
    (fresh : log.authority = []) (empty : log.additional = [])
    (away : z.flagauthoritative = false → env.provesWildcard q z wild = false)
    (h : env.close q z a wild anpos r = .ok r') : AnswerIs r'.bytes question log.answer := by
  cases hauth : z.flagauthoritative with
  | true =>
    obtain ⟨_, log₁, log', _, _, _, hanswer, _, hfinished⟩ := close_spec idle fresh empty
      (fun _ hauthority => authority_some valid target (.inr hauth) hauthority) h
    rw [← hanswer, ← hfinished.answer]
    exact answerIs_of_says hfinished.message
  | false =>
    unfold Env.close at h
    obtain ⟨r₁, hauthority, h⟩ := bind_eq_ok.mp h
    unfold Env.authority Env.delegation Env.wildcardProof at hauthority
    rw [away hauth, hauth] at hauthority
    have hservers : env.servers false z.control r = .ok r₁ := hauthority
    obtain ⟨r₂, ⟨es, hes⟩, hkeeps⟩ := servers_keeps valid hservers
    obtain ⟨hidle, _⟩ := hes question log idle empty
    rw [hauth] at h
    have hheader := hidle.header.trans hkeeps.length
    have hbegins : Begins r'.bytes question (log.add .authority es) :=
      begins_of_idle hidle empty (hkeeps.trans (finish_keeps hheader h))
    have hanswer := answerIs_of_begins hbegins
    exact hanswer

/-- **Whatever `doit` replies, the answer section is what the name is answered with.** -/
theorem doit_answered {qtype : Bytes} {fuel : Nat} {cname : Bool} {draws : Nat} {q question : Name}
    (valid : Valid q) {r r' : Response} {log : Log} (idle : Idle r question log)
    (fresh : log.authority = []) (empty : log.additional = [])
    (h : env.doit qtype fuel cname draws q r = .ok r') :
    ∃ es, Answered env qtype q es ∧ AnswerIs r'.bytes question (log.answer ++ es) := by
  induction fuel generalizing cname draws q r log with
  | zero => cases h
  | succ fuel ih =>
    unfold Env.doit at h
    simp only [] at h
    split at h
    · cases h
    · rename_i hz
      cases cname with
      | false => cases h
      | true =>
        cases h
        refine ⟨[], .elsewhere fun c hc => absurd hc (zone_none hz c), ?_⟩
        rw [List.append_nil]
        exact answerIs_of_says idle.clearAa.message
    · rename_i z hz
      obtain ⟨hnearest, hsoa, _⟩ := zone_nearest hz
      have hcontrol := valid.suffix hnearest.above
      split at h
      · rename_i hauth
        obtain ⟨⟨r₁, a₁, stop⟩, hanswers, h⟩ := bind_eq_ok.mp h
        have hstopped := answers_stopped valid (List.suffix_refl q) hnearest.above rfl hanswers
        have hvisited := hstopped.visited valid
        have hcname := hvisited.alias
        obtain ⟨es, hemits, hcomplete, halias⟩ : ∃ es, Emits .answer es r r₁ ∧
            Complete env qtype q z.control es ∧ Alias env qtype q z.control a₁.flagcname := by
          by_cases hsome : env.visible stop (decide (stop ≠ q)) = []
          · rw [hsome] at hvisited
            obtain ⟨hunfound, hsame⟩ := hvisited.nothing
            have hnone : ∀ a, ¬env.Selected q z.control a := fun _ => hstopped.not_selected hunfound
            rw [hsame]
            exact ⟨[], .refl .answer r, ⟨fun a ha => absurd ha (hnone a), fun _ => rfl⟩,
              fun a ha => absurd ha (hnone a)⟩
          · have hselected := hstopped.selected hsome
            obtain ⟨b, _, hnode⟩ := hstopped.node
            obtain ⟨es, hemits, hfull⟩ :=
              answerNode_addresses valid (valid.suffix hstopped.below).labels hnode
            refine ⟨es, hemits, ⟨fun a ha => ?_, fun hnone => absurd hselected (hnone stop)⟩,
              fun a ha => ?_⟩
            · rw [ha.unique hselected]
              exact hfull
            · rw [ha.unique hselected, hcname]
        obtain ⟨hidle, _⟩ := hemits question log idle ⟨fresh, empty⟩
        have hhome := hsoa.mp hauth
        simp only [] at h
        split at h
        · rename_i target htarget
          rw [htarget] at hcname halias
          split at h
          · cases h
          · obtain ⟨es', hes', hanswer⟩ := ih (lastFollowed_valid hcname.symm) hidle fresh empty h
            have hsome : env.visible stop (decide (stop ≠ q)) ≠ [] := by
              intro hnil
              rw [hnil] at hcname
              cases hcname
            refine ⟨es ++ es', .alias hnearest hhome hcomplete ⟨stop, hstopped.selected hsome⟩ halias
              hes', ?_⟩
            rw [← List.append_assoc]
            exact hanswer
        · rename_i hnone
          rw [hnone] at halias
          refine ⟨es, .node hnearest hhome hcomplete halias, ?_⟩
          have htarget : env.doDnssec = true → ∀ n, a₁.nsec3 = some n → Valid n :=
            fun hdns n hn => hvisited.nsec3_valid hdns hn
          have haway : z.flagauthoritative = false → env.provesWildcard q z stop = false :=
            fun hno => absurd hauth (by rw [hno]; exact Bool.false_ne_true)
          split at h
          · exact close_answerIs hcontrol htarget hidle fresh empty haway h
          · exact close_answerIs hcontrol htarget hidle.nxdomain fresh empty haway h
      · rename_i hauth
        refine ⟨[], .elsewhere fun c hc => ?_, ?_⟩
        · rw [hc.unique hnearest]
          exact mt hsoa.mpr hauth
        · rw [List.append_nil]
          refine close_answerIs hcontrol (fun _ n hn => by cases hn) idle.clearAa fresh empty
            (fun _ => ?_) h
          unfold Env.provesWildcard
          rw [decide_eq_false (fun hne => hne rfl), Bool.and_false, Bool.false_and]

/-- **Address selection.** In every reply, for every database and every sequence of random numbers,
the answer section has, of the addresses of each node that answers, eight different ones or all
where they are fewer, and for a client with DNSSEC all of them. -/
theorem respond_addresses {q question : Name} {qtype : Bytes} (valid : Valid q) {r r' : Response}
    (idle : Idle r question {}) (h : env.respond q qtype r = .ok r') :
    ∃ answer, Answered env qtype q answer ∧ AnswerIs r'.bytes question answer :=
  doit_answered valid idle rfl rfl h

theorem respond_addresses_wildcard :
    ∃ r r' answer, responseQuery [[120], [122]] dnsTA dnsCIn ⟨[], [], 0, 0⟩ = .ok r ∧
      (Env.of wildcardZone false).respond [[120], [122]] dnsTA r = .ok r' ∧
      Answered (Env.of wildcardZone false) dnsTA [[120], [122]] answer ∧
      AnswerIs r'.bytes [[120], [122]] answer := by
  obtain ⟨r, hr⟩ : ∃ r, responseQuery [[120], [122]] dnsTA dnsCIn ⟨[], [], 0, 0⟩ = .ok r :=
    exists_of_isOk rfl
  obtain ⟨r', hr'⟩ : ∃ r', (Env.of wildcardZone false).respond [[120], [122]] dnsTA r = .ok r' := by
    cases hr
    exact exists_of_isOk (by decide +kernel)
  have hvalid : Valid [[120], [122]] := by decide
  obtain ⟨answer, hanswered, hanswer⟩ :=
    respond_addresses hvalid (responseQuery_idle hvalid rfl rfl hr) hr'
  exact ⟨r, r', answer, hr, hr', hanswered, hanswer⟩

/-- The zone `z` with nine A records that are no addresses. -/
def shortZone : Data.Database where
  records :=
    Data.rr [[122]] dnsTSoa 60 (Data.ttdparse []) [0, 0] ([0, 0] ++ List.replicate 20 0) ::
      Data.rr [[122]] dnsTNs 60 (Data.ttdparse []) [0, 0] [0] ::
      [1, 2, 3, 4, 5, 6, 7, 8, 9].map fun b => Data.rr [[122]] dnsTA 60 (Data.ttdparse []) [0, 0] [b]
  wellFormed := by decide +kernel

/-- A records of another length than four octets do not go through the pool. -/
theorem respond_addresses_short : ¬ ∀ (env : Env) (q control question : Name) (r r' : Response)
    (answer : List Entry), env.doDnssec = false → env.Nearest q control →
    env.Shows control dnsTSoa → env.visible q false ≠ [] →
    (∀ f ∈ env.visible q false, f.type ≠ dnsTCname) → Idle r question {} →
    env.respond q dnsTA r = .ok r' → AnswerIs r'.bytes question answer →
    answer.length = min ((env.visible q false).filter fun f => decide (f.type = dnsTA)).length 8 := by
  intro h
  obtain ⟨r, hr⟩ : ∃ r, responseQuery [[122]] dnsTA dnsCIn ⟨[], [], 0, 0⟩ = .ok r :=
    exists_of_isOk rfl
  obtain ⟨r', hr'⟩ : ∃ r', (Env.of shortZone false).respond [[122]] dnsTA r = .ok r' := by
    cases hr
    exact exists_of_isOk (by decide +kernel)
  have hvalid : Valid [[122]] := by decide
  have hidle := responseQuery_idle hvalid rfl rfl hr
  obtain ⟨answer, _, hanswer⟩ := doit_answered hvalid hidle rfl rfl hr'
  have hzone : (Env.of shortZone false).Nearest [[122]] [[122]] := by
    refine ⟨List.suffix_refl _, by unfold Env.Shows; decide +kernel, fun b hb hc hne => ?_⟩
    exact absurd (hb.eq_of_length_le hc.length_le) hne
  have hlen := h (Env.of shortZone false) [[122]] [[122]] [[122]] r r' answer rfl hzone
    (by unfold Env.Shows; decide +kernel) (by decide +kernel) (by decide +kernel) hidle hr' hanswer
  have hrun : (responseQuery [[122]] dnsTA dnsCIn ⟨[], [], 0, 0⟩ >>=
      (Env.of shortZone false).respond [[122]] dnsTA).toOption.map
        (fun r => (r.bytes.drop 6).take 2) = some [0, 9] := by
    decide +kernel
  rw [hr] at hrun
  have hrun : ((Env.of shortZone false).respond [[122]] dnsTA r).toOption.map
      (fun r => (r.bytes.drop 6).take 2) = some [0, 9] := hrun
  rw [hr'] at hrun
  have hcount : (r'.bytes.drop 6).take 2 = [0, 9] := Option.some.inj hrun
  have hanswer : AnswerIs r'.bytes [[122]] answer := hanswer
  have hheld := (List.prefix_iff_eq_take.mp (holds_memory.mp hanswer.1)).symm
  rw [be16_length, hcount, hlen] at hheld
  revert hheld
  decide +kernel

end TinyDnssec.Lookup
